/-
# `Rtlog.Base.Bag` — a bag of nodes, and nodes that are linked

A bag is something to put nodes into and get them out of again, in any order.  What
may happen to it is said by its events: a node is added that is not in it, and a node
is got that is.  `Linked` says that following the links from a head leads through a
list of nodes and to no other.
-/
import Rtlog.Base.Machine

namespace Bag

variable {ν : Type}

inductive Event (ν : Type) where
  | add (n : ν)
  | got (n : ν)
  deriving DecidableEq

/-- What may happen. -/
inductive Next : Set ν → Event ν → Set ν → Prop
  | add {S : Set ν} {n : ν} (h : n ∉ S) : Next S (.add n) (insert n S)
  | got {S : Set ν} {n : ν} (h : n ∈ S) : Next S (.got n) (S \ {n})

end Bag

/-! ## Links -/

/-- The links lead from `head` through the nodes of the list. -/
def Linked {ν : Type} (next : ν → Option ν) : Option ν → List ν → Prop
  | head, [] => head = none
  | head, n :: ns => head = some n ∧ Linked next (next n) ns

variable {ν : Type} {next next' : ν → Option ν} {head : Option ν} {ns : List ν}

/-- Links of other nodes may change. -/
theorem Linked.congr (h : Linked next head ns) (hn : ∀ n ∈ ns, next' n = next n) :
    Linked next' head ns := by
  induction ns generalizing head with
  | nil => exact h
  | cons n ns ih =>
      refine ⟨h.1, ?_⟩
      rw [hn n List.mem_cons_self]
      exact ih h.2 fun m hm => hn m (List.mem_cons_of_mem n hm)

/-- The head is the first of the list. -/
theorem Linked.head_eq (h : Linked next head ns) : ns.head? = head := by
  cases ns with
  | nil => exact h.symm
  | cons n ns => exact h.1.symm
