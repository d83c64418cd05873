/-
# `Rtlog.Queue.FreeList` — the free list, one atomic operation a step

`FreeList` of `concurrentqueue.h`: a stack of nodes linked by `freeListNext`, with a
word of references in each node, of which the top bit is `SHOULD_BE_ON_FREELIST`.  A
thread takes a reference to the head before it reads its link, and a node whose last
reference goes while the bit is set is put on the list by the thread that dropped it.

    add(node)                                   add_knowing_refcount_is_zero(node)
      freeListRefs.fetch_add(SHOULD)  add         freeListHead.load           addLoad
                                                  freeListNext.store(head)    addNext
    try_get()                                     freeListRefs.store(1)       addRefs
      freeListHead.load               getLoad     freeListHead.c_e_s          addSwap
      head->freeListRefs.load         getRefs     freeListRefs.f_a(SHOULD-1)  addDrop
      head->freeListRefs.c_e_s        getHold
      head->freeListNext.load         getNext
      freeListHead.c_e_s              getSwap
      head->freeListRefs.f_s(2)       getTake
      prevHead->freeListRefs.f_s(1)   getDrop

`add` is called for a node that its caller has: one that has never been on the list, or
that `try_get` returned and that was not added since.  `out` keeps that record.
-/
import Rtlog.Base.Bag
import Rtlog.Base.Census

namespace Rtlog.FreeList

variable {τ ν : Type}

/-- `std::uint32_t` -/
abbrev Refs := BitVec 32

/-- `REFS_MASK` -/
def refsMask : Refs := 0x7FFFFFFF#32

/-- `SHOULD_BE_ON_FREELIST` -/
def shouldBeOnFreeList : Refs := 0x80000000#32

/-- Where a thread is.  Inside `add_knowing_refcount_is_zero`, `resume` says where it was
called: `none` in `add`, and `some head` in `try_get`, whose loop goes on with `head`.
`idle` knows what the last `try_get` returned. -/
inductive Place (ν : Type) where
  | idle (last : Option (Option ν))
  | getLoad
  | getRefs (head : ν)
  | getHold (head : ν) (refs : Refs)
  | getNext (head : ν)
  | getSwap (head : ν) (next : Option ν)
  | getTake (head : ν)
  | getDrop (prevHead : ν) (head : Option ν)
  | addLoad (node : ν) (resume : Option (Option ν))
  | addNext (node : ν) (head : Option ν) (resume : Option (Option ν))
  | addRefs (node : ν) (head : Option ν) (resume : Option (Option ν))
  | addSwap (node : ν) (head : Option ν) (resume : Option (Option ν))
  | addDrop (node : ν) (head : Option ν) (resume : Option (Option ν))
  deriving DecidableEq

/-- The list, the nodes, and where the threads are. -/
structure State (τ ν : Type) where
  freeListHead : Option ν
  freeListRefs : ν → Refs
  freeListNext : ν → Option ν
  place : τ → Place ν
  /-- The nodes that are with a caller. -/
  out : ν → Bool

/-- What a thread does next. -/
inductive Action (τ ν : Type) where
  | add (t : τ) (node : ν)
  | tryGet (t : τ)
  | next (t : τ)

/-- Every node is with a caller; its references are zero and its link is null. -/
def initial : State τ ν where
  freeListHead := none
  freeListRefs _ := 0#32
  freeListNext _ := none
  place _ := .idle none
  out _ := true

/-- `while (head != nullptr)` -/
def Place.loop : Option ν → Place ν
  | none => .idle (some none)
  | some head => .getRefs head

/-- After `add_knowing_refcount_is_zero`. -/
def Place.resume : Option (Option ν) → Place ν
  | none => .idle none
  | some head => .loop head

variable [DecidableEq τ] [DecidableEq ν]

def State.goto (s : State τ ν) (t : τ) (p : Place ν) : State τ ν :=
  { s with place := Function.update s.place t p }

def State.setRefs (s : State τ ν) (n : ν) (refs : Refs) : State τ ν :=
  { s with freeListRefs := Function.update s.freeListRefs n refs }

/-- `add`, with its first operation. -/
def addStep (s : State τ ν) (t : τ) (node : ν) : Option (State τ ν) :=
  match s.place t with
  | .idle _ =>
      if s.out node then
        let refs := s.freeListRefs node
        some ({ s.setRefs node (refs + shouldBeOnFreeList) with
          out := Function.update s.out node false }.goto t
            (if refs = 0#32 then .addLoad node none else .idle none))
      else none
  | _ => none

/-- The next operation of a thread. -/
def nextStep (s : State τ ν) (t : τ) : Option (State τ ν) :=
  match s.place t with
  | .idle _ => none
  | .getLoad => some (s.goto t (.loop s.freeListHead))
  | .getRefs head =>
      let refs := s.freeListRefs head
      some (s.goto t (if refs &&& refsMask = 0#32 then .getLoad else .getHold head refs))
  | .getHold head refs =>
      if s.freeListRefs head = refs then
        some ((s.setRefs head (refs + 1#32)).goto t (.getNext head))
      else some (s.goto t .getLoad)
  | .getNext head => some (s.goto t (.getSwap head (s.freeListNext head)))
  | .getSwap head next =>
      if s.freeListHead = some head then
        some ({ s with freeListHead := next }.goto t (.getTake head))
      else some (s.goto t (.getDrop head s.freeListHead))
  | .getTake head =>
      some ({ s.setRefs head (s.freeListRefs head - 2#32) with
        out := Function.update s.out head true }.goto t (.idle (some (some head))))
  | .getDrop prevHead head =>
      let refs := s.freeListRefs prevHead
      some ((s.setRefs prevHead (refs - 1#32)).goto t
        (if refs = shouldBeOnFreeList + 1#32 then .addLoad prevHead (some head) else .loop head))
  | .addLoad node resume => some (s.goto t (.addNext node s.freeListHead resume))
  | .addNext node head resume =>
      some ({ s with freeListNext := Function.update s.freeListNext node head }.goto t
        (.addRefs node head resume))
  | .addRefs node head resume =>
      some ((s.setRefs node 1#32).goto t (.addSwap node head resume))
  | .addSwap node head resume =>
      if s.freeListHead = head then
        some ({ s with freeListHead := some node }.goto t (.resume resume))
      else some (s.goto t (.addDrop node s.freeListHead resume))
  | .addDrop node head resume =>
      let refs := s.freeListRefs node
      some ((s.setRefs node (refs + (shouldBeOnFreeList - 1#32))).goto t
        (if refs = 1#32 then .addNext node head resume else .resume resume))

def step (s : State τ ν) : Action τ ν → Option (State τ ν)
  | .add t node => addStep s t node
  | .tryGet t =>
      match s.place t with
      | .idle _ => some (s.goto t .getLoad)
      | _ => none
  | .next t => nextStep s t

def machine : Machine (State τ ν) (Action τ ν) := ⟨step⟩

/-- A node goes in when `add` sets its bit, and comes out when it is taken off the head. -/
def event (s : State τ ν) (act : Action τ ν) (_ : State τ ν) : Option (Bag.Event ν) :=
  match act with
  | .add _ node => some (.add node)
  | .tryGet _ => none
  | .next t =>
      match s.place t with
      | .getSwap head _ => if s.freeListHead = some head then some (.got head) else none
      | _ => none

end Rtlog.FreeList
