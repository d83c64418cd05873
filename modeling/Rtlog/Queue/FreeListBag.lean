/-
# `Rtlog.Queue.FreeListBag` — the free list is a bag

Whatever the threads do, a node comes out of the free list only when it is in it, and
only once; and when all threads are done the list has the nodes that are in it.  This
is what `Rtlog.Queue.Machine` takes the free list for (`Rtlog.Queue.Recycling`).

What has become of a node is one of six things, and the word of references is what it
says and one for each thread that holds the node:

    status      references    bit     who may act on it
    out                                its caller, which may add it
    waiting                    set     whoever drops the last reference
    adding t                   set     t, alone: the link may be written
    linking t   1                      t, for the list
    listed      1                      whoever takes it off the head
    taken t     1                      t, which has taken it off

A thread that holds a node reads a link that nobody writes, as the link is written
when nobody holds the node.  So when it finds the node at the head, the link it has
read is the rest of the list.
-/
import Rtlog.Queue.FreeList

namespace Rtlog.FreeList

variable {τ ν : Type}

/-! ## What has become of a node -/

inductive Status (τ : Type) where
  | out
  | waiting
  | adding (t : τ)
  | linking (t : τ)
  | listed
  | taken (t : τ)

/-- The references that no thread holds, with the bit. -/
def Status.base : Status τ → Nat
  | .out => 0
  | .waiting | .adding _ => 2 ^ 31
  | .linking _ | .listed | .taken _ => 1

/-- The thread that alone may act on it. -/
def Status.owner? : Status τ → Option τ
  | .adding t | .linking t | .taken t => some t
  | _ => none

/-- It has been added, and not got since. -/
def Status.inside : Status τ → Prop
  | .out | .taken _ => False
  | _ => True

structure Ghost (τ ν : Type) where
  status : ν → Status τ
  /-- The nodes of the list, the head first. -/
  chain : List ν

/-- The bag that the list stands for. -/
def Ghost.bag (g : Ghost τ ν) : Set ν := {n | (g.status n).inside}

/-! ## Where the threads are -/

/-- The node whose status a thread alone may change. -/
def Place.node? : Place ν → Option ν
  | .getTake n | .addLoad n _ | .addNext n _ _ | .addRefs n _ _ | .addSwap n _ _
  | .addDrop n _ _ => some n
  | _ => none

/-- What a thread relies on. -/
def PlaceOk (status : ν → Status τ) (next : ν → Option ν) (t : τ) : Place ν → Prop
  | .getHold _ refs => refs &&& refsMask ≠ 0#32
  | .getSwap n link => next n = link
  | .getTake n => status n = .taken t
  | .addLoad n _ | .addNext n _ _ => status n = .adding t
  | .addRefs n head _ => status n = .adding t ∧ next n = head
  | .addSwap n head _ => status n = .linking t ∧ next n = head
  | .addDrop n _ _ => status n = .linking t
  | _ => True

variable [DecidableEq ν]

/-- A thread has a reference to `n`. -/
def Place.holds (n : ν) : Place ν → Bool
  | .getNext m | .getSwap m _ | .getTake m | .getDrop m _ => m = n
  | _ => false

variable [Fintype τ]

/-- How many threads have one. -/
def State.holders (s : State τ ν) (n : ν) : Nat := census (Place.holds n) s.place

structure Good (g : Ghost τ ν) (s : State τ ν) : Prop where
  refs : ∀ n, s.freeListRefs n = BitVec.ofNat 32 ((g.status n).base + s.holders n)
  waiting : ∀ n, g.status n = .waiting → 0 < s.holders n
  adding : ∀ n t, g.status n = .adding t → s.holders n = 0
  linked : Linked s.freeListNext s.freeListHead g.chain
  nodup : g.chain.Nodup
  mem : ∀ n, n ∈ g.chain ↔ g.status n = .listed
  out : ∀ n, s.out n = true ↔ g.status n = .out
  place : ∀ t, PlaceOk g.status s.freeListNext t (s.place t)
  owner : ∀ n t, (g.status n).owner? = some t → (s.place t).node? = some n

variable {g : Ghost τ ν} {s s' : State τ ν} {t : τ} {n : ν} {p : Place ν}

theorem Good.initial : Good (⟨fun _ => .out, []⟩ : Ghost τ ν) (initial : State τ ν) where
  refs n := by
    have hnone : (FreeList.initial : State τ ν).holders n = 0 := census_eq_zero.mpr fun _ => rfl
    rw [hnone]
    rfl
  waiting := nofun
  adding := nofun
  linked := rfl
  nodup := List.nodup_nil
  mem n := iff_of_false List.not_mem_nil nofun
  out n := iff_of_true rfl rfl
  place _ := trivial
  owner := nofun

omit [DecidableEq ν] [Fintype τ] in
/-- What a thread relies on is not what others change. -/
theorem PlaceOk.mono {status status' : ν → Status τ} {next next' : ν → Option ν}
    (h : PlaceOk status next t p)
    (hstatus : ∀ m, (status m).owner? = some t → status' m = status m)
    (hnext : ∀ m, (∃ link, p = .getSwap m link) ∨ (status m).owner? = some t → next' m = next m) :
    PlaceOk status' next' t p := by
  cases p with
  | getHold m r => exact h
  | getSwap m l => exact (hnext m (.inl ⟨l, rfl⟩)).trans h
  | getTake m =>
      have h : status m = .taken t := h
      exact (hstatus m (by rw [h]; rfl)).trans h
  | addLoad m r =>
      have h : status m = .adding t := h
      exact (hstatus m (by rw [h]; rfl)).trans h
  | addNext m l r =>
      have h : status m = .adding t := h
      exact (hstatus m (by rw [h]; rfl)).trans h
  | addRefs m l r =>
      have hown : (status m).owner? = some t := by rw [h.1]; rfl
      exact ⟨(hstatus m hown).trans h.1, (hnext m (.inr hown)).trans h.2⟩
  | addSwap m l r =>
      have hown : (status m).owner? = some t := by rw [h.1]; rfl
      exact ⟨(hstatus m hown).trans h.1, (hnext m (.inr hown)).trans h.2⟩
  | addDrop m l r =>
      have h : status m = .linking t := h
      exact (hstatus m (by rw [h]; rfl)).trans h
  | _ => trivial

variable [DecidableEq τ]

omit [DecidableEq ν] [Fintype τ] [DecidableEq τ] in
/-- Whoever has taken a node off is about to return it. -/
theorem PlaceOk.getTake {status : ν → Status τ} {next : ν → Option ν} (h : PlaceOk status next t p)
    (hst : status n = .taken t) (hnode : p.node? = some n) : p = .getTake n := by
  cases p <;> cases hnode
  case getTake => rfl
  case addRefs => exact absurd (hst.symm.trans h.1) nofun
  case addSwap => exact absurd (hst.symm.trans h.1) nofun
  all_goals exact absurd (hst.symm.trans h) nofun

/-- A thread goes on, with nothing changed. -/
theorem Good.goto (h : Good g s) (hp : PlaceOk g.status s.freeListNext t p)
    (hholds : ∀ n, p.holds n = (s.place t).holds n)
    (hnode : ∀ n, (s.place t).node? = some n → p.node? = some n) : Good g (s.goto t p) := by
  have hsame : ∀ n, (s.goto t p).holders n = s.holders n := fun n => census_stay (hholds n)
  refine { h with refs := ?_, waiting := ?_, adding := ?_, place := ?_, owner := ?_ }
  · intro n
    rw [hsame]
    exact h.refs n
  · intro n hn
    rw [hsame]
    exact h.waiting n hn
  · intro n u hn
    rw [hsame]
    exact h.adding n u hn
  · intro u
    rcases eq_or_ne u t with rfl | hne
    · simp only [State.goto, Function.update_self]
      exact hp
    · simp only [State.goto, Function.update_of_ne hne]
      exact h.place u
  · intro n u hn
    rcases eq_or_ne u t with rfl | hne
    · simp only [State.goto, Function.update_self]
      exact hnode n (h.owner n u hn)
    · simp only [State.goto, Function.update_of_ne hne]
      exact h.owner n u hn

/-- Thread `t` changes node `n`, which is nobody else's alone, and goes on. -/
theorem Good.change {st : Status τ} {chain : List ν} (h : Good g s)
    (hthread : s'.place = Function.update s.place t p)
    (hrefs : ∀ m, m ≠ n → s'.freeListRefs m = s.freeListRefs m)
    (hrefs' : s'.freeListRefs n = BitVec.ofNat 32 (st.base + s'.holders n))
    (hholds : ∀ m, m ≠ n → p.holds m = (s.place t).holds m)
    (hout : ∀ m, m ≠ n → s'.out m = s.out m) (hout' : s'.out n = true ↔ st = .out)
    (hnext : ∀ m, s'.freeListNext m = s.freeListNext m ∨ m = n ∧ g.status n = .adding t)
    (hwaiting : st = .waiting → 0 < s'.holders n) (hadding : ∀ u, st = .adding u → s'.holders n = 0)
    (hlinked : Linked s'.freeListNext s'.freeListHead chain) (hnodup : chain.Nodup)
    (hmem : n ∈ chain ↔ st = .listed) (hmem' : ∀ m, m ≠ n → (m ∈ chain ↔ m ∈ g.chain))
    (howner : ∀ u, (g.status n).owner? = some u → u = t)
    (howner' : ∀ u, st.owner? = some u → u = t ∧ p.node? = some n)
    (hnode : ∀ m, (s.place t).node? = some m → m = n)
    (hp : PlaceOk (Function.update g.status n st) s'.freeListNext t p) :
    Good ⟨Function.update g.status n st, chain⟩ s' := by
  have hsame : ∀ m, m ≠ n → s'.holders m = s.holders m := fun m hne => by
    rw [State.holders, hthread]
    exact census_stay (hholds m hne)
  have hself : Function.update g.status n st n = st := Function.update_self ..
  have hother : ∀ m, m ≠ n → Function.update g.status n st m = g.status m :=
    fun m hne => Function.update_of_ne hne ..
  generalize Function.update g.status n st = status at hself hother hp ⊢
  refine ⟨?_, ?_, ?_, hlinked, hnodup, ?_, ?_, ?_, ?_⟩
  · intro m
    rcases eq_or_ne m n with rfl | hne
    · simp only [hself, hrefs']
    · simp only [hother m hne, hsame m hne, hrefs m hne]
      exact h.refs m
  · intro m hm
    rcases eq_or_ne m n with rfl | hne
    · exact hwaiting (hself.symm.trans hm)
    · rw [hsame m hne]
      exact h.waiting m ((hother m hne).symm.trans hm)
  · intro m u hm
    rcases eq_or_ne m n with rfl | hne
    · exact hadding u (hself.symm.trans hm)
    · rw [hsame m hne]
      exact h.adding m u ((hother m hne).symm.trans hm)
  · intro m
    rcases eq_or_ne m n with rfl | hne
    · simp only [hself, hmem]
    · simp only [hother m hne, hmem' m hne, h.mem m]
  · intro m
    rcases eq_or_ne m n with rfl | hne
    · simp only [hself, hout']
    · simp only [hother m hne, hout m hne, h.out m]
  · intro u
    rw [hthread]
    rcases eq_or_ne u t with rfl | hne
    · rw [Function.update_self]
      exact hp
    · rw [Function.update_of_ne hne]
      refine (h.place u).mono (fun m hm => ?_) fun m hheld => ?_
      · rcases eq_or_ne m n with rfl | hmn
        · exact absurd (howner u hm) hne
        · exact hother m hmn
      · -- the link of `n` is written when nobody holds `n`
        rcases hnext m with heq | ⟨rfl, hadd⟩
        · exact heq
        · rcases hheld with ⟨link, hu⟩ | hu
          · have hpos : 0 < s.holders m :=
              census_pos (t := u) (by rw [hu]; exact decide_eq_true rfl)
            rw [h.adding m t hadd] at hpos
            exact absurd hpos (Nat.lt_irrefl 0)
          · exact absurd (howner u hu) hne
  · intro m u hm
    rw [hthread]
    rcases eq_or_ne m n with rfl | hne
    · obtain ⟨rfl, hnode'⟩ := howner' u (hself ▸ hm)
      rw [Function.update_self]
      exact hnode'
    · have hu := h.owner m u (hother m hne ▸ hm)
      rcases eq_or_ne u t with rfl | hut
      · exact absurd (hnode m hu) hne
      · rw [Function.update_of_ne hut]
        exact hu

/-- Thread `t` changes how many hold node `n`, and nothing else. -/
theorem Good.recount (h : Good g s) {refs : Refs}
    (hrefs : refs = BitVec.ofNat 32 ((g.status n).base + ((s.setRefs n refs).goto t p).holders n))
    (hholds : ∀ m, m ≠ n → p.holds m = (s.place t).holds m)
    (hwaiting : g.status n = .waiting → 0 < ((s.setRefs n refs).goto t p).holders n)
    (hadding : ∀ u, g.status n = .adding u → ((s.setRefs n refs).goto t p).holders n = 0)
    (hnode : (s.place t).node? = none) (hp : PlaceOk g.status s.freeListNext t p) :
    Good g ((s.setRefs n refs).goto t p) := by
  have hsame : ∀ m, m ≠ n → ((s.setRefs n refs).goto t p).holders m = s.holders m :=
    fun m hne => census_stay (hholds m hne)
  refine { h with refs := ?_, waiting := ?_, adding := ?_, place := ?_, owner := ?_ }
  · intro m
    rcases eq_or_ne m n with rfl | hne
    · refine Eq.trans ?_ hrefs
      simp only [State.goto, State.setRefs, Function.update_self]
    · rw [hsame m hne, ← h.refs m]
      simp only [State.goto, State.setRefs, Function.update_of_ne hne]
  · intro m hm
    rcases eq_or_ne m n with rfl | hne
    · exact hwaiting hm
    · rw [hsame m hne]
      exact h.waiting m hm
  · intro m u hm
    rcases eq_or_ne m n with rfl | hne
    · exact hadding u hm
    · rw [hsame m hne]
      exact h.adding m u hm
  · intro u
    rcases eq_or_ne u t with rfl | hne
    · simp only [State.goto, Function.update_self]
      exact hp
    · simp only [State.goto, Function.update_of_ne hne]
      exact h.place u
  · intro m u hm
    have hu := h.owner m u hm
    rcases eq_or_ne u t with rfl | hne
    · rw [hnode] at hu
      cases hu
    · simp only [State.goto, Function.update_of_ne hne]
      exact hu

/-! ## The bag -/

section Bag

variable {st : Status τ} {chain : List ν}

omit [Fintype τ] [DecidableEq τ] in
theorem Ghost.bag_same (h : st.inside ↔ (g.status n).inside) :
    Ghost.bag ⟨Function.update g.status n st, chain⟩ = g.bag := by
  ext m
  rcases eq_or_ne m n with rfl | hne
  · simp only [Ghost.bag, Set.mem_ofPred_eq, Function.update_self, h]
  · simp only [Ghost.bag, Set.mem_ofPred_eq, Function.update_of_ne hne]

omit [Fintype τ] [DecidableEq τ] in
theorem Ghost.bag_insert (h : st.inside) :
    Ghost.bag ⟨Function.update g.status n st, chain⟩ = insert n g.bag := by
  ext m
  rcases eq_or_ne m n with rfl | hne
  · simp only [Ghost.bag, Set.mem_ofPred_eq, Function.update_self, h, Set.mem_insert_iff, true_or]
  · simp only [Ghost.bag, Set.mem_ofPred_eq, Function.update_of_ne hne, Set.mem_insert_iff, hne,
      false_or]

omit [Fintype τ] [DecidableEq τ] in
theorem Ghost.bag_remove (h : ¬ st.inside) :
    Ghost.bag ⟨Function.update g.status n st, chain⟩ = g.bag \ {n} := by
  ext m
  rcases eq_or_ne m n with rfl | hne
  · simp only [Ghost.bag, Set.mem_ofPred_eq, Function.update_self, h, Set.mem_sdiff,
      Set.mem_singleton_iff, not_true_eq_false, and_false]
  · simp only [Ghost.bag, Set.mem_ofPred_eq, Function.update_of_ne hne, Set.mem_sdiff,
      Set.mem_singleton_iff, hne, not_false_eq_true, and_true]

end Bag

/-! ## The words -/

theorem refs_inj {a b : Nat} (ha : a < 2 ^ 32) (hb : b < 2 ^ 32)
    (h : BitVec.ofNat 32 a = BitVec.ofNat 32 b) : a = b := by
  have h := congrArg BitVec.toNat h
  rwa [BitVec.toNat_ofNat, BitVec.toNat_ofNat, Nat.mod_eq_of_lt ha, Nat.mod_eq_of_lt hb] at h

theorem bit_clear {refs : Refs} (h : refs.toNat < 2 ^ 31) : refs &&& shouldBeOnFreeList = 0#32 := by
  have hbit : refs.getLsbD 31 = false := Nat.testBit_lt_two_pow h
  have hand := BitVec.and_twoPow refs 31
  rw [hbit] at hand
  exact hand

/-- There are too few threads for the references to reach the bit. -/
abbrev Few (τ : Type) [Fintype τ] : Prop := Fintype.card τ + 1 < 2 ^ 31

omit [Fintype τ] [DecidableEq τ] in
theorem Status.base_le (st : Status τ) : st.base ≤ 2 ^ 31 := by
  cases st <;> simp [Status.base]

omit [DecidableEq τ] in
theorem State.holders_lt (s : State τ ν) (hfew : Few τ) (n : ν) : s.holders n + 1 < 2 ^ 31 :=
  Nat.lt_of_le_of_lt (Nat.add_le_add_right (census_le _ _) 1) hfew

/-! ## Taking a node off -/

theorem Place.holds_loop (head : Option ν) (n : ν) : (Place.loop head).holds n = false := by
  cases head <;> rfl

theorem Place.holds_resume (r : Option (Option ν)) (n : ν) : (Place.resume r).holds n = false := by
  cases r with
  | none => rfl
  | some head => exact holds_loop head n

omit [DecidableEq ν] [Fintype τ] [DecidableEq τ] in
theorem PlaceOk.loop {status : ν → Status τ} {next : ν → Option ν} (head : Option ν) :
    PlaceOk status next t (.loop head) := by
  cases head <;> trivial

omit [DecidableEq ν] [Fintype τ] [DecidableEq τ] in
theorem PlaceOk.resume {status : ν → Status τ} {next : ν → Option ν} (r : Option (Option ν)) :
    PlaceOk status next t (.resume r) := by
  cases r with
  | none => trivial
  | some head => exact .loop head

theorem Good.getLoad (h : Good g s) (hp : s.place t = .getLoad) :
    Good g (s.goto t (.loop s.freeListHead)) :=
  h.goto (.loop _) (fun n => by rw [hp, Place.holds_loop]; rfl) fun n hn => by
    rw [hp] at hn
    cases hn

/-- Whoever takes a reference finds one already there, so the link is not being written. -/
theorem Good.getHold {refs : Refs} (h : Good g s) (hp : s.place t = .getHold n refs)
    (heq : s.freeListRefs n = refs) :
    Good g ((s.setRefs n (refs + 1#32)).goto t (.getNext n)) := by
  have hmask := h.place t
  rw [hp] at hmask
  have hmask : refs &&& refsMask ≠ 0#32 := hmask
  have hnot : (s.place t).holds n = false := by rw [hp]; rfl
  have henter : ((s.setRefs n (refs + 1#32)).goto t (.getNext n)).holders n = s.holders n + 1 :=
    census_enter (decide_eq_true rfl) hnot
  refine h.recount ?_ (fun m hne => ?_) (fun _ => ?_) (fun u hadd => ?_) (by rw [hp]; rfl) trivial
  · rw [henter, ← Nat.add_assoc, BitVec.ofNat_add, ← h.refs n, heq]
  · rw [hp]
    exact decide_eq_false hne.symm
  · rw [henter]
    exact Nat.succ_pos _
  · have hrefs := h.refs n
    rw [heq, hadd, h.adding n u hadd] at hrefs
    have hzero : BitVec.ofNat 32 (2 ^ 31 + 0) &&& refsMask = 0#32 := by decide
    exact absurd (hrefs ▸ hzero) hmask

/-- The node at the head is the first of the list, and the link is the rest of it. -/
theorem Good.getSwap {next : Option ν} (h : Good g s) (hp : s.place t = .getSwap n next)
    (heq : s.freeListHead = some n) :
    g.status n = .listed ∧ ∃ rest, g.chain = n :: rest ∧
      Good ⟨Function.update g.status n (.taken t), rest⟩
        ({ s with freeListHead := next }.goto t (.getTake n)) := by
  have hnext := h.place t
  rw [hp] at hnext
  have hnext : s.freeListNext n = next := hnext
  have hlinked := h.linked
  have hhead := hlinked.head_eq
  have hmem := h.mem n
  have hnodup := h.nodup
  generalize hchain : g.chain = chain at hlinked hhead hmem hnodup
  cases chain with
  | nil =>
      rw [heq] at hhead
      cases hhead
  | cons m rest =>
      rw [heq] at hhead
      obtain rfl : m = n := Option.some.inj hhead
      have hlisted := hmem.mp List.mem_cons_self
      obtain ⟨hnot, hnodup⟩ := List.nodup_cons.mp hnodup
      have hrefs := h.refs m
      rw [hlisted] at hrefs
      have hsame : ({ s with freeListHead := next }.goto t (.getTake m)).holders m =
          s.holders m := by
        have hstay : (Place.getTake m).holds m = (s.place t).holds m := by rw [hp]; rfl
        exact census_stay hstay
      refine ⟨hlisted, rest, rfl, h.change (n := m) rfl (fun _ _ => rfl) ?_ (fun k hne => ?_)
        (fun _ _ => rfl) ?_ (fun _ => .inl rfl) (by nofun) (by nofun) ?_ hnodup ?_
        (fun k hne => ?_) (fun u hu => ?_) (fun u hu => ?_) (fun k hk => ?_) ?_⟩
      · rw [hsame]
        exact hrefs
      · rw [hp]; rfl
      · refine iff_of_false (fun hout => ?_) nofun
        rw [(h.out m).mp hout] at hlisted
        cases hlisted
      · rw [← hnext]
        exact hlinked.2
      · exact iff_of_false hnot nofun
      · rw [hchain, List.mem_cons]
        exact ⟨.inr, fun hk => hk.resolve_left hne⟩
      · rw [hlisted] at hu
        cases hu
      · exact ⟨(Option.some.inj hu).symm, rfl⟩
      · rw [hp] at hk
        cases hk
      · exact Function.update_self ..

theorem Good.getTake (h : Good g s) (hp : s.place t = .getTake n) :
    g.status n = .taken t ∧ Good ⟨Function.update g.status n .out, g.chain⟩
      ({ s.setRefs n (s.freeListRefs n - 2#32) with
        out := Function.update s.out n true }.goto t (.idle (some (some n)))) := by
  have htaken := h.place t
  rw [hp] at htaken
  have htaken : g.status n = .taken t := htaken
  have hhold : (s.place t).holds n = true := by rw [hp]; exact decide_eq_true rfl
  have hnot : ¬ n ∈ g.chain := fun hmem => by
    rw [(h.mem n).mp hmem] at htaken
    cases htaken
  refine ⟨htaken, h.change (n := n) rfl (fun m hne => ?_) ?_ (fun m hne => ?_) (fun m hne => ?_) ?_
    (fun _ => .inl rfl) nofun nofun h.linked h.nodup ?_ (fun _ _ => Iff.rfl) (fun u hu => ?_) nofun
    (fun m hm => ?_) trivial⟩
  · exact Function.update_of_ne hne ..
  · have hleave : ({ s.setRefs n (s.freeListRefs n - 2#32) with
        out := Function.update s.out n true }.goto t (.idle (some (some n)))).holders n + 1 =
        s.holders n := census_leave rfl hhold
    have hrefs := h.refs n
    rw [htaken, ← hleave, Status.base, Nat.add_comm 1, Nat.add_assoc, BitVec.ofNat_add] at hrefs
    refine (Function.update_self ..).trans ?_
    rw [hrefs, Status.base, Nat.zero_add]
    exact BitVec.add_sub_cancel ..
  · have hne : n ≠ m := hne.symm
    rw [hp]
    exact (decide_eq_false hne).symm
  · exact Function.update_of_ne hne ..
  · exact iff_of_true (Function.update_self ..) rfl
  · exact iff_of_false hnot nofun
  · rw [htaken] at hu
    exact (Option.some.inj hu).symm
  · rw [hp] at hm
    exact (Option.some.inj hm).symm

/-- The last reference to a node that waits hands it to the thread that drops it. -/
theorem Good.getDrop {head : Option ν} (hfew : Few τ) (h : Good g s)
    (hp : s.place t = .getDrop n head) :
    ∃ g', g'.bag = g.bag ∧ Good g' ((s.setRefs n (s.freeListRefs n - 1#32)).goto t
      (if s.freeListRefs n = shouldBeOnFreeList + 1#32 then .addLoad n (some head)
        else .loop head)) := by
  have hhold : (s.place t).holds n = true := by rw [hp]; exact decide_eq_true rfl
  have hpos : 0 < s.holders n := census_pos hhold
  have hlt := s.holders_lt hfew n
  have hbase := (g.status n).base_le
  have hleave : ∀ p : Place ν, p.holds n = false →
      ((s.setRefs n (s.freeListRefs n - 1#32)).goto t p).holders n + 1 = s.holders n :=
    fun p hn => census_leave hn hhold
  have hrefs : ∀ p : Place ν, p.holds n = false → s.freeListRefs n - 1#32 = BitVec.ofNat 32
      ((g.status n).base + ((s.setRefs n (s.freeListRefs n - 1#32)).goto t p).holders n) := by
    intro p hn
    have hword := h.refs n
    rw [← hleave p hn, ← Nat.add_assoc, BitVec.ofNat_add] at hword
    rw [hword]
    exact BitVec.add_sub_cancel ..
  have hother : ∀ p : Place ν, (∀ m, p.holds m = false) → ∀ m, m ≠ n →
      p.holds m = (s.place t).holds m := by
    intro p hn m hne
    rw [hn, hp]
    exact (decide_eq_false hne.symm).symm
  have hbit : s.freeListRefs n = shouldBeOnFreeList + 1#32 ↔
      (g.status n).base + s.holders n = 2 ^ 31 + 1 := by
    rw [h.refs n]
    exact ⟨refs_inj (by omega) (by decide), fun heq => by rw [heq]; rfl⟩
  split
  · next hlast =>
      have hsum := hbit.mp hlast
      have hwait : g.status n = .waiting := by
        cases hst : g.status n with
        | waiting => rfl
        | adding u =>
            rw [h.adding n u hst] at hpos
            exact absurd hpos (Nat.lt_irrefl 0)
        | _ =>
            rw [hst] at hsum
            simp only [Status.base] at hsum
            omega
      have hzero : ((s.setRefs n (s.freeListRefs n - 1#32)).goto t
          (.addLoad n (some head))).holders n = 0 := by
        have hone := hleave (.addLoad n (some head)) rfl
        rw [hwait, Status.base] at hsum
        omega
      have hword := hrefs (.addLoad n (some head)) rfl
      rw [hwait] at hword
      refine ⟨⟨Function.update g.status n (.adding t), g.chain⟩, ?_, h.change (n := n) rfl
        (fun m hne => Function.update_of_ne hne ..) ((Function.update_self ..).trans hword)
        (hother _ fun _ => rfl) (fun _ _ => rfl) ?_ (fun _ => .inl rfl) nofun (fun _ _ => hzero)
        h.linked h.nodup ?_ (fun _ _ => Iff.rfl) (fun u hu => ?_) (fun u hu => ?_) (fun m hm => ?_)
        (Function.update_self ..)⟩
      · exact Ghost.bag_same (by rw [hwait]; exact Iff.rfl)
      · refine iff_of_false (fun hout => ?_) nofun
        rw [(h.out n).mp hout] at hwait
        cases hwait
      · refine iff_of_false (fun hmem => ?_) nofun
        rw [(h.mem n).mp hmem] at hwait
        cases hwait
      · rw [hwait] at hu
        cases hu
      · exact ⟨(Option.some.inj hu).symm, rfl⟩
      · rw [hp] at hm
        cases hm
  · next hlast =>
      refine ⟨g, rfl, h.recount (hrefs _ (Place.holds_loop ..)) (hother _ (Place.holds_loop _))
        (fun hwait => ?_) (fun u hadd => ?_) (by rw [hp]; rfl) (.loop _)⟩
      · have hmore : s.holders n ≠ 1 := fun hone => hlast (hbit.mpr (by rw [hwait, hone]; rfl))
        have := hleave (.loop head) (Place.holds_loop ..)
        omega
      · rw [h.adding n u hadd] at hpos
        exact absurd hpos (Nat.lt_irrefl 0)

/-! ## Putting a node on -/

/-- A caller gives its node up; if nobody else holds it, it goes on to put it on the list. -/
theorem Good.add {last : Option (Option ν)} (hfew : Few τ) (h : Good g s)
    (hp : s.place t = .idle last) (hout : s.out n = true) :
    n ∉ g.bag ∧ ∃ g', g'.bag = insert n g.bag ∧
      Good g' ({ s.setRefs n (s.freeListRefs n + shouldBeOnFreeList) with
        out := Function.update s.out n false }.goto t
          (if s.freeListRefs n = 0#32 then .addLoad n none else .idle none)) := by
  have hst := (h.out n).mp hout
  have hlt := s.holders_lt hfew n
  have hword := h.refs n
  rw [hst, Status.base, Nat.zero_add] at hword
  have hzero : s.freeListRefs n = 0#32 ↔ s.holders n = 0 := by
    rw [hword]
    exact ⟨refs_inj (by omega) (by decide), fun heq => by rw [heq]⟩
  have hnot : ¬ n ∈ g.chain := fun hmem => by
    rw [(h.mem n).mp hmem] at hst
    cases hst
  have hidle : ∀ p : Place ν, (∀ m, p.holds m = false) → ∀ m, p.holds m = (s.place t).holds m := by
    intro p hn m
    rw [hn, hp]
    rfl
  have hnone : ∀ p : Place ν, (∀ m, p.holds m = false) →
      ({ s.setRefs n (s.freeListRefs n + shouldBeOnFreeList) with
        out := Function.update s.out n false }.goto t p).holders n = s.holders n :=
    fun p hn => census_stay (hidle p hn n)
  have hset : s.freeListRefs n + shouldBeOnFreeList = BitVec.ofNat 32 (2 ^ 31 + s.holders n) := by
    rw [hword, Nat.add_comm, BitVec.ofNat_add]
    rfl
  have hgone : Function.update s.out n false n = false := Function.update_self ..
  refine ⟨fun hmem => ?_, ?_⟩
  · have hin : (g.status n).inside := hmem
    rw [hst] at hin
    exact hin
  · split
    · next heq =>
        refine ⟨⟨Function.update g.status n (.adding t), g.chain⟩, Ghost.bag_insert trivial,
          h.change (n := n) rfl (fun m hne => Function.update_of_ne hne ..) ?_
          (fun m _ => hidle _ (fun _ => rfl) m) (fun m hne => Function.update_of_ne hne ..) ?_
          (fun _ => .inl rfl) nofun (fun _ _ => ?_) h.linked h.nodup ?_ (fun _ _ => Iff.rfl)
          (fun u hu => ?_) (fun u hu => ⟨(Option.some.inj hu).symm, rfl⟩) (fun m hm => ?_)
          (Function.update_self ..)⟩
        · refine (Function.update_self ..).trans ?_
          rw [hnone _ fun _ => rfl]
          exact hset
        · exact iff_of_false (fun htrue => Bool.false_ne_true (hgone.symm.trans htrue)) nofun
        · rw [hnone _ fun _ => rfl]
          exact hzero.mp heq
        · exact iff_of_false hnot nofun
        · rw [hst] at hu
          cases hu
        · rw [hp] at hm
          cases hm
    · next hne =>
        refine ⟨⟨Function.update g.status n .waiting, g.chain⟩, Ghost.bag_insert trivial,
          h.change (n := n) rfl (fun m hne => Function.update_of_ne hne ..) ?_
          (fun m _ => hidle _ (fun _ => rfl) m) (fun m hne => Function.update_of_ne hne ..) ?_
          (fun _ => .inl rfl) (fun _ => ?_) nofun h.linked h.nodup ?_ (fun _ _ => Iff.rfl)
          (fun u hu => ?_) nofun (fun m hm => ?_) trivial⟩
        · refine (Function.update_self ..).trans ?_
          rw [hnone _ fun _ => rfl]
          exact hset
        · exact iff_of_false (fun htrue => Bool.false_ne_true (hgone.symm.trans htrue)) nofun
        · rw [hnone _ fun _ => rfl]
          exact Nat.pos_of_ne_zero (mt hzero.mpr hne)
        · exact iff_of_false hnot nofun
        · rw [hst] at hu
          cases hu
        · rw [hp] at hm
          cases hm

theorem Good.addLoad {r : Option (Option ν)} (h : Good g s) (hp : s.place t = .addLoad n r) :
    Good g (s.goto t (.addNext n s.freeListHead r)) := by
  have hok := h.place t
  rw [hp] at hok
  have hok : g.status n = .adding t := hok
  exact h.goto hok (fun m => by rw [hp]; rfl) fun m hm => by rw [hp] at hm; exact hm

/-- The link is written while nobody holds the node. -/
theorem Good.addNext {head : Option ν} {r : Option (Option ν)} (h : Good g s)
    (hp : s.place t = .addNext n head r) :
    Good g ({ s with freeListNext := Function.update s.freeListNext n head }.goto t
      (.addRefs n head r)) := by
  have hadd := h.place t
  rw [hp] at hadd
  have hadd : g.status n = .adding t := hadd
  have hnot : ¬ n ∈ g.chain := fun hmem => by
    rw [(h.mem n).mp hmem] at hadd
    cases hadd
  have hsame : ({ s with freeListNext := Function.update s.freeListNext n head }.goto t
      (.addRefs n head r)).holders n = s.holders n := by
    have hstay : (Place.addRefs n head r).holds n = (s.place t).holds n := by rw [hp]; rfl
    exact census_stay hstay
  have hstatus : Function.update g.status n (.adding t) = g.status := by
    rw [← hadd]
    exact Function.update_eq_self ..
  suffices hgood : Good ⟨Function.update g.status n (.adding t), g.chain⟩
      ({ s with freeListNext := Function.update s.freeListNext n head }.goto t
        (.addRefs n head r)) by
    rw [hstatus] at hgood
    exact hgood
  refine h.change (n := n) rfl (fun _ _ => rfl) ?_ (fun m _ => by rw [hp]; rfl) (fun _ _ => rfl) ?_
    (fun m => ?_) nofun (fun _ _ => ?_) (h.linked.congr fun m hm => ?_) h.nodup ?_
    (fun _ _ => Iff.rfl) (fun u hu => ?_) (fun u hu => ⟨(Option.some.inj hu).symm, rfl⟩)
    (fun m hm => ?_) ⟨Function.update_self .., Function.update_self ..⟩
  · have hrefs := h.refs n
    rw [hadd] at hrefs
    rw [hsame]
    exact hrefs
  · refine iff_of_false (fun hout => ?_) nofun
    rw [(h.out n).mp hout] at hadd
    cases hadd
  · rcases eq_or_ne m n with rfl | hne
    · exact .inr ⟨rfl, hadd⟩
    · exact .inl (Function.update_of_ne hne ..)
  · rw [hsame]
    exact h.adding n t hadd
  · exact Function.update_of_ne (ne_of_mem_of_not_mem hm hnot) ..
  · exact iff_of_false hnot nofun
  · rw [hadd] at hu
    exact (Option.some.inj hu).symm
  · rw [hp] at hm
    exact (Option.some.inj hm).symm

/-- From here on others may take references. -/
theorem Good.addRefs {head : Option ν} {r : Option (Option ν)} (h : Good g s)
    (hp : s.place t = .addRefs n head r) :
    ∃ g', g'.bag = g.bag ∧ Good g' ((s.setRefs n 1#32).goto t (.addSwap n head r)) := by
  have hok := h.place t
  rw [hp] at hok
  obtain ⟨hadd, hlink⟩ : g.status n = .adding t ∧ s.freeListNext n = head := hok
  have hzero : ((s.setRefs n 1#32).goto t (.addSwap n head r)).holders n = 0 := by
    have hstay : (Place.addSwap n head r).holds n = (s.place t).holds n := by rw [hp]; rfl
    exact (census_stay hstay).trans (h.adding n t hadd)
  refine ⟨⟨Function.update g.status n (.linking t), g.chain⟩,
    Ghost.bag_same (by rw [hadd]; exact Iff.rfl), h.change (n := n) rfl
    (fun m hne => Function.update_of_ne hne ..) ?_ (fun m _ => by rw [hp]; rfl) (fun _ _ => rfl) ?_
    (fun _ => .inl rfl) nofun nofun h.linked h.nodup ?_ (fun _ _ => Iff.rfl) (fun u hu => ?_)
    (fun u hu => ⟨(Option.some.inj hu).symm, rfl⟩) (fun m hm => ?_)
    ⟨Function.update_self .., hlink⟩⟩
  · rw [hzero]
    exact Function.update_self ..
  · refine iff_of_false (fun hout => ?_) nofun
    rw [(h.out n).mp hout] at hadd
    cases hadd
  · refine iff_of_false (fun hmem => ?_) nofun
    rw [(h.mem n).mp hmem] at hadd
    cases hadd
  · rw [hadd] at hu
    exact (Option.some.inj hu).symm
  · rw [hp] at hm
    exact (Option.some.inj hm).symm

/-- The head has not changed since it was read, or it has and is the same again: the list
is what the link says. -/
theorem Good.addSwap {head : Option ν} {r : Option (Option ν)} (h : Good g s)
    (hp : s.place t = .addSwap n head r) (heq : s.freeListHead = head) :
    ∃ g', g'.bag = g.bag ∧ Good g' ({ s with freeListHead := some n }.goto t (.resume r)) := by
  have hok := h.place t
  rw [hp] at hok
  obtain ⟨hlinking, hlink⟩ : g.status n = .linking t ∧ s.freeListNext n = head := hok
  have hnot : ¬ n ∈ g.chain := fun hmem => by
    rw [(h.mem n).mp hmem] at hlinking
    cases hlinking
  have hsame : ({ s with freeListHead := some n }.goto t (.resume r)).holders n = s.holders n := by
    have hstay : (Place.resume r).holds n = (s.place t).holds n := by
      rw [hp, Place.holds_resume]
      rfl
    exact census_stay hstay
  refine ⟨⟨Function.update g.status n .listed, n :: g.chain⟩,
    Ghost.bag_same (by rw [hlinking]; exact Iff.rfl), h.change (n := n) rfl (fun _ _ => rfl) ?_
    (fun m _ => by rw [hp, Place.holds_resume]; rfl) (fun _ _ => rfl) ?_ (fun _ => .inl rfl)
    nofun nofun ⟨rfl, ?_⟩ (List.nodup_cons.mpr ⟨hnot, h.nodup⟩) (iff_of_true List.mem_cons_self rfl)
    (fun m hne => ?_) (fun u hu => ?_) nofun (fun m hm => ?_) (.resume r)⟩
  · have hrefs := h.refs n
    rw [hlinking] at hrefs
    rw [hsame]
    exact hrefs
  · refine iff_of_false (fun hout => ?_) nofun
    rw [(h.out n).mp hout] at hlinking
    cases hlinking
  · show Linked s.freeListNext (s.freeListNext n) g.chain
    rw [hlink, ← heq]
    exact h.linked
  · rw [List.mem_cons]
    exact ⟨fun hm => hm.resolve_left hne, .inr⟩
  · rw [hlinking] at hu
    exact (Option.some.inj hu).symm
  · rw [hp] at hm
    exact (Option.some.inj hm).symm

/-- The node waits for whoever drops its last reference, which may be this thread. -/
theorem Good.addDrop {head : Option ν} {r : Option (Option ν)} (hfew : Few τ) (h : Good g s)
    (hp : s.place t = .addDrop n head r) :
    ∃ g', g'.bag = g.bag ∧
      Good g' ((s.setRefs n (s.freeListRefs n + (shouldBeOnFreeList - 1#32))).goto t
        (if s.freeListRefs n = 1#32 then .addNext n head r else .resume r)) := by
  have hlinking := h.place t
  rw [hp] at hlinking
  have hlinking : g.status n = .linking t := hlinking
  have hlt := s.holders_lt hfew n
  have hword := h.refs n
  rw [hlinking, Status.base] at hword
  have hone : s.freeListRefs n = 1#32 ↔ s.holders n = 0 := by
    rw [hword]
    refine ⟨fun heq => ?_, fun heq => by rw [heq]⟩
    have := refs_inj (b := 1) (by omega) (by decide) heq
    omega
  have hnot : ¬ n ∈ g.chain := fun hmem => by
    rw [(h.mem n).mp hmem] at hlinking
    cases hlinking
  have hsame : ∀ p : Place ν, (∀ m, p.holds m = false) →
      ((s.setRefs n (s.freeListRefs n + (shouldBeOnFreeList - 1#32))).goto t p).holders n =
        s.holders n := by
    intro p hn
    have hstay : p.holds n = (s.place t).holds n := by rw [hn, hp]; rfl
    exact census_stay hstay
  have hset : s.freeListRefs n + (shouldBeOnFreeList - 1#32) =
      BitVec.ofNat 32 (2 ^ 31 + s.holders n) := by
    rw [hword, BitVec.ofNat_add, BitVec.ofNat_add, BitVec.add_comm (BitVec.ofNat 32 1),
      BitVec.add_assoc, BitVec.add_comm (BitVec.ofNat 32 (2 ^ 31))]
    rfl
  have hidle : ∀ p : Place ν, (∀ m, p.holds m = false) → ∀ m, p.holds m = (s.place t).holds m := by
    intro p hn m
    rw [hn, hp]
    rfl
  have hout : ∀ st : Status τ, st ≠ .out → (s.out n = true ↔ st = .out) := by
    refine fun st hne => iff_of_false (fun hout => ?_) hne
    rw [(h.out n).mp hout] at hlinking
    cases hlinking
  split
  · next heq =>
      refine ⟨⟨Function.update g.status n (.adding t), g.chain⟩,
        Ghost.bag_same (by rw [hlinking]; exact Iff.rfl), h.change (n := n) rfl
        (fun m hne => Function.update_of_ne hne ..) ?_ (fun m _ => hidle _ (fun _ => rfl) m)
        (fun _ _ => rfl) (hout _ nofun) (fun _ => .inl rfl) nofun (fun _ _ => ?_) h.linked h.nodup
        (iff_of_false hnot nofun) (fun _ _ => Iff.rfl) (fun u hu => ?_)
        (fun u hu => ⟨(Option.some.inj hu).symm, rfl⟩) (fun m hm => ?_) (Function.update_self ..)⟩
      · rw [hsame _ fun _ => rfl]
        exact (Function.update_self ..).trans hset
      · rw [hsame _ fun _ => rfl]
        exact hone.mp heq
      · rw [hlinking] at hu
        exact (Option.some.inj hu).symm
      · rw [hp] at hm
        exact (Option.some.inj hm).symm
  · next hne =>
      have hresume := Place.holds_resume r
      refine ⟨⟨Function.update g.status n .waiting, g.chain⟩,
        Ghost.bag_same (by rw [hlinking]; exact Iff.rfl), h.change (n := n) rfl
        (fun m hne => Function.update_of_ne hne ..) ?_ (fun m _ => hidle _ hresume m)
        (fun _ _ => rfl) (hout _ nofun) (fun _ => .inl rfl) (fun _ => ?_) nofun h.linked h.nodup
        (iff_of_false hnot nofun) (fun _ _ => Iff.rfl) (fun u hu => ?_) nofun (fun m hm => ?_)
        (.resume r)⟩
      · rw [hsame _ hresume]
        exact (Function.update_self ..).trans hset
      · rw [hsame _ hresume]
        exact Nat.pos_of_ne_zero (mt hone.mpr hne)
      · rw [hlinking] at hu
        exact (Option.some.inj hu).symm
      · rw [hp] at hm
        exact (Option.some.inj hm).symm

/-! ## Runs -/

/-- What one operation does to the bag. -/
theorem Good.step {act : Action τ ν} (hfew : Few τ) (h : Good g s) (hs : step s act = some s') :
    ∃ g', EventPath Bag.Next g.bag (event s act s').toList g'.bag ∧ Good g' s' := by
  cases act with
  | add t n =>
      simp only [FreeList.step, addStep] at hs
      split at hs
      · next last hp =>
          split at hs
          · next hout =>
              obtain ⟨hnot, g', hbag, hgood⟩ := h.add hfew hp hout
              cases hs
              exact ⟨g', .cons (hbag ▸ .add hnot) (.nil _), hgood⟩
          · cases hs
      · cases hs
  | tryGet t =>
      simp only [FreeList.step] at hs
      split at hs
      · next last hp =>
          cases hs
          refine ⟨g, .nil _, h.goto trivial (fun n => by rw [hp]; rfl) fun n hn => ?_⟩
          rw [hp] at hn
          cases hn
      · cases hs
  | next t =>
      simp only [FreeList.step, nextStep] at hs
      simp only [event]
      split at hs
      · cases hs
      · next hp =>
          cases hs
          simp only [hp]
          exact ⟨g, .nil _, h.getLoad hp⟩
      · next n hp =>
          cases hs
          simp only [hp]
          refine ⟨g, .nil _, h.goto ?_ (fun m => ?_) fun m hm => ?_⟩
          · split
            · trivial
            · next hmask => exact hmask
          · rw [hp]
            split <;> rfl
          · rw [hp] at hm
            cases hm
      · next n refs hp =>
          simp only [hp]
          split at hs
          · next heq =>
              cases hs
              exact ⟨g, .nil _, h.getHold hp heq⟩
          · cases hs
            refine ⟨g, .nil _, h.goto trivial (fun m => by rw [hp]; rfl) fun m hm => ?_⟩
            rw [hp] at hm
            cases hm
      · next n hp =>
          cases hs
          simp only [hp]
          refine ⟨g, .nil _, h.goto rfl (fun m => by rw [hp]; rfl) fun m hm => ?_⟩
          rw [hp] at hm
          cases hm
      · next n link hp =>
          simp only [hp]
          split at hs
          · next heq =>
              cases hs
              obtain ⟨hlisted, rest, hchain, hgood⟩ := h.getSwap hp heq
              have hin : n ∈ g.bag := by
                show (g.status n).inside
                rw [hlisted]
                trivial
              have hbag : Ghost.bag ⟨Function.update g.status n (.taken t), rest⟩ = g.bag \ {n} :=
                Ghost.bag_remove id
              rw [if_pos heq]
              exact ⟨_, .cons (hbag ▸ .got hin) (.nil _), hgood⟩
          · next hne =>
              cases hs
              rw [if_neg hne]
              refine ⟨g, .nil _, h.goto trivial (fun m => by rw [hp]; rfl) fun m hm => ?_⟩
              rw [hp] at hm
              cases hm
      · next n hp =>
          cases hs
          simp only [hp]
          obtain ⟨htaken, hgood⟩ := h.getTake hp
          have hbag : Ghost.bag ⟨Function.update g.status n .out, g.chain⟩ = g.bag :=
            Ghost.bag_same (by rw [htaken]; exact Iff.rfl)
          exact ⟨_, hbag ▸ .nil _, hgood⟩
      · next n head hp =>
          cases hs
          simp only [hp]
          obtain ⟨g', hbag, hgood⟩ := h.getDrop hfew hp
          exact ⟨g', hbag ▸ .nil _, hgood⟩
      · next n r hp =>
          cases hs
          simp only [hp]
          exact ⟨g, .nil _, h.addLoad hp⟩
      · next n head r hp =>
          cases hs
          simp only [hp]
          exact ⟨g, .nil _, h.addNext hp⟩
      · next n head r hp =>
          cases hs
          simp only [hp]
          obtain ⟨g', hbag, hgood⟩ := h.addRefs hp
          exact ⟨g', hbag ▸ .nil _, hgood⟩
      · next n head r hp =>
          simp only [hp]
          split at hs
          · next heq =>
              cases hs
              obtain ⟨g', hbag, hgood⟩ := h.addSwap hp heq
              exact ⟨g', hbag ▸ .nil _, hgood⟩
          · cases hs
            have hok := h.place t
            rw [hp] at hok
            exact ⟨g, .nil _, h.goto hok.1 (fun m => by rw [hp]; rfl) fun m hm => by
              rw [hp] at hm
              exact hm⟩
      · next n head r hp =>
          cases hs
          simp only [hp]
          obtain ⟨g', hbag, hgood⟩ := h.addDrop hfew hp
          exact ⟨g', hbag ▸ .nil _, hgood⟩

/-- What every run from the constructor keeps. -/
theorem Good.run {as : List (Action τ ν)} (hfew : Few τ)
    (hrun : machine.run (FreeList.initial : State τ ν) as = some s) :
    ∃ g : Ghost τ ν, EventPath Bag.Next ∅ (machine.trace event FreeList.initial as) g.bag ∧
      Good g s := by
  have hstart : Ghost.bag (⟨fun _ => .out, []⟩ : Ghost τ ν) = ∅ := Set.eq_empty_of_forall_notMem
    fun _ => id
  have hall : machine.Along (fun _ _ _ => True) (FreeList.initial : State τ ν) as :=
    Machine.along_true
  obtain ⟨S, hpath, g, rfl, hgood⟩ := hall.refines
    (R := fun s S => ∃ g : Ghost τ ν, g.bag = S ∧ Good g s) (fun s act s' S hR hs _ => by
      obtain ⟨g, rfl, hg⟩ := hR
      obtain ⟨g', hpath, hg'⟩ := hg.step hfew hs
      exact ⟨g'.bag, hpath, g', rfl, hg'⟩) ⟨_, hstart, Good.initial⟩ hrun
  exact ⟨g, hpath, hgood⟩

/-- In every run from the constructor, with any threads in any interleaving, a node comes
out of the list only when it is in it, and for one thread. -/
theorem freeList_refines {as : List (Action τ ν)} (hfew : Few τ)
    (hrun : machine.run initial as = some s) :
    ∃ S : Set ν, EventPath Bag.Next ∅ (machine.trace event initial as) S ∧
      (∀ n ∈ S, s.out n = false ∧ ∀ t, s.place t ≠ .getTake n) ∧
      (∀ n ∉ S, s.out n = true ∨ ∃ t, s.place t = .getTake n ∧
        ∀ u, s.place u = .getTake n → u = t) := by
  obtain ⟨g, hpath, hg⟩ := Good.run hfew hrun
  have htaken : ∀ n t, s.place t = .getTake n → g.status n = .taken t := fun n t hp => by
    have hok := hg.place t
    rw [hp] at hok
    exact hok
  refine ⟨g.bag, hpath, fun n hin => ⟨?_, fun t hp => ?_⟩, fun n hnot => ?_⟩
  · have hin : (g.status n).inside := hin
    refine Bool.eq_false_iff.mpr fun hout => ?_
    rw [(hg.out n).mp hout] at hin
    exact hin
  · have hin : (g.status n).inside := hin
    rw [htaken n t hp] at hin
    exact hin
  · have hnot : ¬ (g.status n).inside := hnot
    cases hst : g.status n with
    | out => exact .inl ((hg.out n).mpr hst)
    | taken t =>
        refine .inr ⟨t, ?_, fun u hu => ?_⟩
        · exact (hg.place t).getTake hst (hg.owner n t (by rw [hst]; rfl))
        · exact (Status.taken.inj (hst.symm.trans (htaken n u hu))).symm
    | _ =>
        rw [hst] at hnot
        exact absurd trivial hnot

/-- Two threads take hold of the one node; one gets it, and gives it back while the other
still holds it, which then puts it on the list. -/
def handover : List (Action Bool Bool) :=
  .add true false :: List.replicate 4 (.next true) ++ [.tryGet true, .tryGet false] ++
    List.replicate 4 (.next true) ++ List.replicate 4 (.next false) ++
    [.next true, .next false, .next true, .add true false] ++ List.replicate 5 (.next false)

theorem freeList_refines_handover : ∃ S : Set Bool, EventPath Bag.Next ∅
    [.add false, .got false, .add false] S := by
  have hsome : (machine.run (FreeList.initial : State Bool Bool) handover).isSome = true := by
    decide +kernel
  obtain ⟨S, hpath, -⟩ := freeList_refines (by decide) (Option.some_get hsome).symm
  have htrace : machine.trace event (FreeList.initial : State Bool Bool) handover =
      [.add false, .got false, .add false] := by decide +kernel
  exact ⟨S, htrace ▸ hpath⟩

/-- The assertion of `try_get`: the bit of the node it has got is clear. -/
theorem freeList_assert {as : List (Action τ ν)} (hfew : Few τ)
    (hrun : machine.run initial as = some s) (hp : s.place t = .getTake n) :
    s.freeListRefs n &&& shouldBeOnFreeList = 0#32 := by
  obtain ⟨g, -, hg⟩ := Good.run hfew hrun
  have htaken := hg.place t
  rw [hp] at htaken
  have htaken : g.status n = .taken t := htaken
  have hlt := s.holders_lt hfew n
  rw [hg.refs n, htaken, Status.base]
  have hsmall : (BitVec.ofNat 32 (1 + s.holders n)).toNat < 2 ^ 31 := by
    rw [BitVec.toNat_ofNat]
    omega
  generalize BitVec.ofNat 32 (1 + s.holders n) = refs at hsmall
  exact bit_clear hsmall

theorem freeList_assert_handover : ∃ s : State Bool Bool,
    machine.run FreeList.initial (handover.take 16) = some s ∧ s.place true = .getTake false ∧
      s.freeListRefs false &&& shouldBeOnFreeList = 0#32 := by
  have hplace : (machine.run (FreeList.initial : State Bool Bool) (handover.take 16)).map
    (fun s => s.place true) = some (.getTake false) := by decide +kernel
  obtain ⟨s, hrun, hp⟩ := Option.map_eq_some_iff.mp hplace
  exact ⟨s, hrun, hp, freeList_assert (by decide) hrun hp⟩

/-- When no thread is inside, the list has exactly the nodes that no caller has, each
once, and it alone refers to them. -/
theorem freeList_idle {as : List (Action τ ν)} (hfew : Few τ)
    (hrun : machine.run initial as = some s) (hidle : ∀ t, ∃ last, s.place t = .idle last) :
    ∃ chain, Linked s.freeListNext s.freeListHead chain ∧ chain.Nodup ∧
      (∀ n, n ∈ chain ↔ s.out n = false) ∧
      ∀ n, s.freeListRefs n = if s.out n then 0#32 else 1#32 := by
  obtain ⟨g, -, hg⟩ := Good.run hfew hrun
  have hnone : ∀ n, s.holders n = 0 := fun n => census_eq_zero.mpr fun t => by
    obtain ⟨last, hp⟩ := hidle t
    rw [hp]
    rfl
  have hstatus : ∀ n, g.status n = .out ∨ g.status n = .listed := by
    intro n
    have hfree : ∀ t, (g.status n).owner? ≠ some t := fun t hown => by
      obtain ⟨last, hp⟩ := hidle t
      have hnode := hg.owner n t hown
      rw [hp] at hnode
      cases hnode
    cases hst : g.status n with
    | out => exact .inl rfl
    | listed => exact .inr rfl
    | waiting => exact absurd (hg.waiting n hst) (by rw [hnone]; decide)
    | _ t => exact absurd (by rw [hst]; rfl) (hfree t)
  refine ⟨g.chain, hg.linked, hg.nodup, fun n => ?_, fun n => ?_⟩
  · rw [hg.mem, ← Bool.not_eq_true, hg.out]
    rcases hstatus n with hst | hst <;> rw [hst] <;> simp
  · have hrefs := hg.refs n
    rw [hnone] at hrefs
    rcases hstatus n with hst | hst
    · rw [hrefs, if_pos ((hg.out n).mpr hst), hst]
      rfl
    · rw [hrefs, if_neg (fun hout => by rw [(hg.out n).mp hout] at hst; cases hst), hst]
      rfl

theorem freeList_idle_handover : ∃ (s : State Bool Bool) (chain : List Bool),
    machine.run FreeList.initial handover = some s ∧
      Linked s.freeListNext s.freeListHead chain ∧ ∀ n, n ∈ chain ↔ s.out n = false := by
  have hplaces : (machine.run (FreeList.initial : State Bool Bool) handover).map
    (fun s => (s.place true, s.place false)) = some (.idle none, .idle (some none)) := by
    decide +kernel
  obtain ⟨s, hrun, hp⟩ := Option.map_eq_some_iff.mp hplaces
  obtain ⟨chain, hlinked, -, hmem, -⟩ := freeList_idle (by decide) hrun fun t => by
    cases t
    · exact ⟨_, (Prod.mk.inj hp).2⟩
    · exact ⟨_, (Prod.mk.inj hp).1⟩
  exact ⟨s, chain, hrun, hlinked, hmem⟩

end Rtlog.FreeList
