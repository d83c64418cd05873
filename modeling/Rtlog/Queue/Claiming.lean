/-
# `Rtlog.Queue.Claiming` — `dequeue` up to the element it claims

Each step of a consumer leads from a state that has a view to a state that has
one, and the lemma about it says which:

    loadTail, loadIndexTail, loadKey, loadValue     the same view
    loadOvercommit, fetchOptimistic, reloadTail     what the consumer has read, or its ticket
    fetchOvercommit                                 ... or that it has given that back
    fetchHead                                       the next element is claimed and in hand

The null block is not reached: a claimed element's block is in use, so its entry
has the block, and whatever the consumer finds at the tail of the index leads it
to that entry.
-/
import Rtlog.Queue.Frame

namespace Rtlog.Queue

variable {ι κ α : Type} [DecidableEq κ] {v : View ι κ α} {q : ConcurrentQueue ι κ α}
  {c : κ} {i : ι}

/-! ## Reading -/

theorem Good.loadTail (h : Good v q) (hd : q.deq c = .loadTail i) :
    Good v (q.setDeq c (.loadOvercommit i (q.producers i).tailIndex)) := by
  refine h.setDeq ?_ (by rw [hd]; rfl)
  have hc := h.consumer c
  rw [hd] at hc
  exact hc

/-- The first comparison fails, and nothing has happened. -/
theorem Good.giveUp {t o : Size} (h : Good v q) (hd : q.deq c = .loadOptimistic i t o) :
    Good v (q.setDeq c (.idle (some none))) := by
  refine h.setDeq ?_ (by rw [hd]; rfl)
  have hc := h.consumer c
  rw [hd] at hc
  exact hc.1

theorem Good.loadOptimistic {t o : Size} (h : Good v q) (hd : q.deq c = .loadOptimistic i t o) :
    Good v (q.setDeq c (.fetchOptimistic i o)) := by
  refine h.setDeq ?_ (by rw [hd]; rfl)
  have hc := h.consumer c
  rw [hd] at hc
  exact hc

/-- The tail of the block index is at a slot that has been used. -/
theorem ProducerOk.key_tail {s : SubQueue κ α} {p : ImplicitProducer} {e : Enqueue α}
    {blocks : BlockId → Block α} {owner : BlockId → Owner ι κ}
    (h : ProducerOk s p e blocks owner i) (hpos : 0 < s.count) :
    (p.index p.tail).key ≠ invalidBlockBase := by
  rw [h.index.tail]
  split
  · next ha => exact h.index.ahead ha
  · obtain ⟨k, hk⟩ := Nat.exists_eq_succ_of_ne_zero (Nat.ne_of_gt hpos)
    rw [hk, Nat.succ_eq_add_one, Nat.add_assoc, slot_add]
    exact h.index.used k (by omega)

theorem Good.loadIndexTail {x : Size} (h : Good v q) (hd : q.deq c = .loadIndexTail i x) :
    Good v (q.setDeq c (.loadKey i x (q.producers i).tail)) := by
  refine h.setDeq ?_ (by rw [hd]; rfl)
  have hc := h.consumer c
  rw [hd] at hc
  obtain ⟨n, hx, hn⟩ := hc
  exact ⟨n, hx, hn, (h.producer i).key_tail (Nat.lt_of_le_of_lt (Nat.zero_le _) hn.block_lt)⟩

/-- Whatever key is found at the tail, the slot computed from it is the right one. -/
theorem Good.loadKey {x t : Size} (h : Good v q) (hd : q.deq c = .loadKey i x t) :
    Good v (q.setDeq c (.loadValue i x (indexIndex x t ((q.producers i).index t).key))) := by
  refine h.setDeq ?_ (by rw [hd]; rfl)
  have hc := h.consumer c
  rw [hd] at hc
  obtain ⟨n, hx, hn, hkey⟩ := hc
  refine ⟨n, hx, hn, ?_⟩
  rcases (h.producer i).index.keys t with hinv | ⟨k, ht, hk⟩
  · exact absurd hinv hkey
  · rw [hk, ht, hx, indexIndex_eq]

/-- The entry of a claimed element has its block. -/
theorem Good.value_eq (h : Good v q) {n : Nat} {hand : Option α}
    (hn : Holding (v.subQueue i) (.claimed c) hand n) :
    ((q.producers i).index (slot (n / 32))).value = some ((v.subQueue i).block (n / 32)) := by
  have hb := (h.producer i).storage
  refine hb.value _ hn.block_lt ?_
  rw [hb.inUse_of_ne_gone hn.block_lt (by rw [hn.status_eq]; nofun)]
  nofun

theorem Good.loadValue {x s : Size} (h : Good v q) (hd : q.deq c = .loadValue i x s) :
    ∃ b, ((q.producers i).index s).value = some b ∧ Good v (q.setDeq c (.take i x s b)) := by
  have hc := h.consumer c
  rw [hd] at hc
  obtain ⟨n, hx, hn, hs⟩ := hc
  have hvalue := h.value_eq hn
  rw [← hs] at hvalue
  exact ⟨_, hvalue, h.setDeq ⟨n, hx, hn, hs, rfl⟩ (by rw [hd]; rfl)⟩

/-! ## Drawing a ticket -/

variable [DecidableEq ι]

omit [DecidableEq κ] in
theorem ConcurrentQueue.setProducer_self (q : ConcurrentQueue ι κ α) (i : ι) :
    q.setProducer i (q.producers i) = q := by
  rw [setProducer, Function.update_eq_self]

/-- The claims on producer `i` are now `claims`. -/
def View.recount (v : View ι κ α) (i : ι) (claims : Claims κ) : View ι κ α :=
  { v with subQueue := Function.update v.subQueue i { v.subQueue i with claims := claims } }

omit [DecidableEq κ] in
theorem View.recount_claims (v : View ι κ α) (i : ι) (claims : Claims κ) :
    ((v.recount i claims).subQueue i).claims = claims := by
  simp only [recount, Function.update_self]

/-- A step that moves the claimant and its ticket only. -/
theorem Good.recount (h : Good v q) {claims : Claims κ} {p : ImplicitProducer} {d : Dequeue ι α}
    (htail : claims.tail = (v.subQueue i).claims.tail)
    (hhead : claims.head = (v.subQueue i).claims.head)
    (hclaimant : ∀ e, e ≠ c → claims.claimant e = (v.subQueue i).claims.claimant e)
    (hsound : claims.Sound) (hwindow : claims.optimistic ≤ claims.head + 2 ^ 63 + 1)
    (hp : p = { q.producers i with
      dequeueOptimisticCount := word claims.optimistic
      dequeueOvercommit := word claims.overcommit })
    (hd : DequeueOk (v.recount i claims).subQueue (q.setProducer i p).producers v.owner
      (v.hand c) c d)
    (hnew : d.oldBlock? = none) (hold : (q.deq c).oldBlock? = none) :
    Good (v.recount i claims) ((q.setProducer i p).setDeq c d) := by
  subst hp
  have hi := h.producer i
  refine h.consume rfl rfl rfl rfl (fun _ _ => rfl) ?_ (fun _ _ _ _ _ => ⟨rfl, rfl⟩)
    (fun _ _ _ _ => ⟨rfl, rfl⟩) hd ?_ (fun _ ht => ht) (fun _ _ _ hb => hb) ?_
  · refine ⟨?_, { hi.index with }, ?_, ?_⟩
    · have hcount := hi.counters
      exact {
        tailIndex := by rw [htail]; exact hcount.tailIndex
        headIndex := by rw [hhead]; exact hcount.headIndex
        optimistic := rfl
        overcommit := rfl
        sound := hsound
        window := hwindow
        length := by rw [htail]; exact hcount.length
        queued := by rw [hhead]; exact hcount.queued }
    · exact { hi.storage with
        tail_le := by rw [htail]; exact hi.storage.tail_le
        le_tail := by rw [htail]; exact hi.storage.le_tail
        le_head := by rw [hhead]; exact hi.storage.le_head }
    · exact hi.enqueue.mono htail (Nat.le_of_eq hhead.symm) rfl (fun _ hp => hp) (fun _ hs => hs)
        fun _ _ => ⟨rfl, rfl⟩
  · intro e hne
    exact { SubQueue.Keeps.refl (v.subQueue i) e with claimant := hclaimant e hne }
  · refine h.pool.mono rfl ?_ rfl rfl rfl (fun _ => rfl) ?_ fun _ _ => rfl
    · intro j k hk hph
      rcases eq_or_ne j i with rfl | hne
      · simp only [View.recount, Function.update_self]
        exact ⟨hk, hph, trivial⟩
      · simp only [View.recount, Function.update_of_ne hne]
        exact ⟨hk, hph, trivial⟩
    · intro e
      rcases eq_or_ne e c with rfl | hne
      · simp only [ConcurrentQueue.setDeq, Function.update_self, hnew, hold]
      · simp only [ConcurrentQueue.setDeq, Function.update_of_ne hne]; rfl

/-- A step that moves the claimant only. -/
theorem Good.recount_self (h : Good v q) {claims : Claims κ} {d : Dequeue ι α}
    (htail : claims.tail = (v.subQueue i).claims.tail)
    (hhead : claims.head = (v.subQueue i).claims.head)
    (hopt : claims.optimistic = (v.subQueue i).claims.optimistic)
    (hover : claims.overcommit = (v.subQueue i).claims.overcommit)
    (hclaimant : ∀ e, e ≠ c → claims.claimant e = (v.subQueue i).claims.claimant e)
    (hsound : claims.Sound)
    (hd : DequeueOk (v.recount i claims).subQueue q.producers v.owner (v.hand c) c d)
    (hnew : d.oldBlock? = none) (hold : (q.deq c).oldBlock? = none) :
    Good (v.recount i claims) (q.setDeq c d) := by
  have hcount := (h.producer i).counters
  have hstep := h.recount (p := q.producers i) htail hhead hclaimant hsound
    (by rw [hopt, hhead]; exact hcount.window)
    (by rw [hopt, hover, ← hcount.optimistic, ← hcount.overcommit])
    (by rw [q.setProducer_self i]; exact hd) hnew hold
  rw [q.setProducer_self i] at hstep
  exact hstep

theorem Good.loadOvercommit {t : Size} (h : Good v q) (hd : q.deq c = .loadOvercommit i t) :
    Good (v.recount i ((v.subQueue i).claims.look c))
      (q.setDeq c (.loadOptimistic i t (q.producers i).dequeueOvercommit)) := by
  have hcount := (h.producer i).counters
  have hc := h.consumer c
  rw [hd] at hc
  refine h.recount_self rfl rfl rfl rfl (fun e hne => Function.update_of_ne hne ..)
    hcount.sound.look ⟨hc, _, hcount.overcommit, ?_⟩ rfl (by rw [hd]; rfl)
  rw [View.recount_claims]
  exact Function.update_self ..

/-- The optimistic count of a producer is at most half a turn ahead of its head. -/
def ImplicitProducer.Within (p : ImplicitProducer) : Prop :=
  (p.dequeueOptimisticCount - p.headIndex).toNat ≤ 2 ^ 63

instance (p : ImplicitProducer) : Decidable p.Within := inferInstanceAs (Decidable (_ ≤ _))

omit [DecidableEq κ] in
theorem CountersOk.optimistic_le {s : SubQueue κ α} {p : ImplicitProducer} (h : CountersOk s p)
    (hw : p.Within) : s.claims.optimistic ≤ s.claims.head + 2 ^ 63 := by
  have hle := h.sound.head_le_optimistic
  have hwindow := h.window
  rw [ImplicitProducer.Within, h.optimistic, h.headIndex,
    Circular.toNat_sub_of_le hle (by omega)] at hw
  omega

theorem Good.fetchOptimistic {o : Size} (h : Good v q) (hd : q.deq c = .fetchOptimistic i o)
    (hw : (q.producers i).Within) :
    ∃ m, (v.subQueue i).claims.claimant c = .looked m ∧
      Good (v.recount i ((v.subQueue i).claims.draw c m))
        ((q.setProducer i { q.producers i with
          dequeueOptimisticCount := (q.producers i).dequeueOptimisticCount + 1#64 }).setDeq c
          (.reloadTail i o (q.producers i).dequeueOptimisticCount)) := by
  have hcount := (h.producer i).counters
  have hc := h.consumer c
  rw [hd] at hc
  obtain ⟨hhand, m, ho, hlooked⟩ := hc
  refine ⟨m, hlooked, h.recount rfl rfl (fun e hne => Function.update_of_ne hne ..)
    (hcount.sound.draw hlooked) ?_ ?_ ⟨hhand, m, _, ho, hcount.optimistic, ?_⟩ rfl
    (by rw [hd]; rfl)⟩
  · exact Nat.succ_le_succ (hcount.optimistic_le hw)
  · show _ = { q.producers i with
      dequeueOptimisticCount := word ((v.subQueue i).claims.optimistic + 1)
      dequeueOvercommit := word (v.subQueue i).claims.overcommit }
    rw [word_succ, ← hcount.optimistic, ← hcount.overcommit]
  · rw [View.recount_claims]
    exact Function.update_self ..

/-- The second comparison is right when it admits. -/
theorem Good.enrol {o x : Size} (h : Good v q) (hd : q.deq c = .reloadTail i o x)
    (hless : circularLessThan (x - o) (q.producers i).tailIndex = true) :
    ∃ m, Good (v.recount i ((v.subQueue i).claims.enrol c m)) (q.setDeq c (.fetchHead i)) := by
  have hcount := (h.producer i).counters
  have hc := h.consumer c
  rw [hd] at hc
  obtain ⟨hhand, l, m, ho, hx, hdrawn⟩ := hc
  have hle := hcount.sound.overcommit_le_number hdrawn
  have hlt := hcount.sound.number_lt (c := c) (m := m) (by rw [hdrawn]; rfl)
  have hdiff : x - o = word (m - l) := by
    rw [hx, ho]
    refine BitVec.sub_eq_iff_eq_add.mpr ?_
    rw [← BitVec.ofNat_add, Nat.sub_add_cancel hle]
  rw [hdiff, hcount.tailIndex] at hless
  have hadm := Circular.lt_of_less (by decide) (x := m - l) (y := (v.subQueue i).claims.tail)
    (by have := hcount.window; have := hcount.sound.head_le_tail; omega) hless
  refine ⟨m, h.recount_self rfl rfl rfl rfl (fun e hne => Function.update_of_ne hne ..)
    (hcount.sound.enrol hdrawn (by omega)) ⟨hhand, m, ?_⟩ rfl (by rw [hd]; rfl)⟩
  rw [View.recount_claims]
  exact Function.update_self ..

theorem Good.refuse {o x : Size} (h : Good v q) (hd : q.deq c = .reloadTail i o x) :
    ∃ m, Good (v.recount i ((v.subQueue i).claims.refuse c m))
      (q.setDeq c (.fetchOvercommit i)) := by
  have hcount := (h.producer i).counters
  have hc := h.consumer c
  rw [hd] at hc
  obtain ⟨hhand, l, m, -, -, hdrawn⟩ := hc
  refine ⟨m, h.recount_self rfl rfl rfl rfl (fun e hne => Function.update_of_ne hne ..)
    (hcount.sound.refuse hdrawn) ⟨hhand, m, ?_⟩ rfl (by rw [hd]; rfl)⟩
  rw [View.recount_claims]
  exact Function.update_self ..

theorem Good.fetchOvercommit (h : Good v q) (hd : q.deq c = .fetchOvercommit i) :
    Good (v.recount i ((v.subQueue i).claims.yield c))
      ((q.setProducer i { q.producers i with
        dequeueOvercommit := (q.producers i).dequeueOvercommit + 1#64 }).setDeq c
        (.idle (some none))) := by
  have hcount := (h.producer i).counters
  have hc := h.consumer c
  rw [hd] at hc
  obtain ⟨hhand, m, hrefused⟩ := hc
  refine h.recount rfl rfl (fun e hne => Function.update_of_ne hne ..)
    (hcount.sound.yield hrefused) hcount.window ?_ hhand rfl (by rw [hd]; rfl)
  show _ = { q.producers i with
    dequeueOptimisticCount := word (v.subQueue i).claims.optimistic
    dequeueOvercommit := word ((v.subQueue i).claims.overcommit + 1) }
  rw [word_succ, ← hcount.optimistic, ← hcount.overcommit]

/-! ## Claiming an element -/

/-- The element in front is claimed by `c`, and in its hand. -/
def View.claim (v : View ι κ α) (i : ι) (c : κ) : View ι κ α :=
  let s := v.subQueue i
  { v with
    subQueue := Function.update v.subQueue i
      { s with claims := s.claims.claim c
               status := Function.update s.status s.claims.head (.claimed c) }
    hand := Function.update v.hand c s.items[s.claims.head]? }

theorem Good.fetchHead (h : Good v q) (hd : q.deq c = .fetchHead i) :
    ∃ a, (v.subQueue i).items[(v.subQueue i).claims.head]? = some a ∧ v.hand c = none ∧
      Good (v.claim i c) ((q.setProducer i { q.producers i with
        headIndex := (q.producers i).headIndex + 1#64 }).setDeq c
        (.loadIndexTail i (q.producers i).headIndex)) := by
  have hi := h.producer i
  have hcount := hi.counters
  have hc := h.consumer c
  rw [hd] at hc
  obtain ⟨hhand, m, hadm⟩ := hc
  have hlt := hcount.sound.head_lt_tail hadm
  have hitem := List.getElem?_eq_getElem (hcount.length ▸ hlt)
  have hqueued := (hcount.queued _).mpr (Nat.le_refl (v.subQueue i).claims.head)
  have hold : (v.subQueue i).status (v.subQueue i).claims.head ≠ .gone := by
    rw [hqueued]
    simp
  have hgone := update_eq_iff (x := .claimed c) hold (by simp)
  refine ⟨_, hitem, hhand, h.consume rfl rfl rfl rfl
    (fun e hne => Function.update_of_ne hne ..) ?_ (fun _ _ _ _ _ => ⟨rfl, rfl⟩)
    (fun _ _ _ _ => ⟨rfl, rfl⟩) ?_ ?_ (fun _ ht => ht) (fun _ _ _ hb => hb) ?_⟩
  · refine ⟨?_, { hi.index with }, ?_, ?_⟩
    · exact { hcount with
        headIndex := by
          show (q.producers i).headIndex + 1#64 = word ((v.subQueue i).claims.head + 1)
          rw [word_succ, hcount.headIndex]
        sound := hcount.sound.claim hadm
        window := by
          have hwindow := hcount.window
          show (v.subQueue i).claims.optimistic ≤ (v.subQueue i).claims.head + 1 + 2 ^ 63 + 1
          omega
        queued := fun n => by
          show Function.update _ _ _ n = _ ↔ (v.subQueue i).claims.head + 1 ≤ n
          rcases eq_or_ne n (v.subQueue i).claims.head with rfl | hne
          · rw [Function.update_self]
            exact iff_of_false (by simp) (by omega)
          · rw [Function.update_of_ne hne, hcount.queued]
            omega }
    · have hb := hi.storage
      exact { hb with
        le_head := Nat.le_trans hb.le_head (Nat.add_le_add_right (Nat.le_succ _) _)
        counter := fun k hk hp => (hb.counter k hk hp).trans
          (tally_congr fun j _ => (hgone _).symm)
        inUse := fun k hk hp => (hb.inUse k hk hp).imp fun j hj => hj.imp_right (mt (hgone _).mp)
        drained := fun k hk hp j hj => (hgone _).mpr (hb.drained k hk hp j hj)
        elements := fun k hk hp j hj => by
          refine (hb.elements k hk hp j hj).trans ?_
          simp only [SubQueue.cell]
          rcases eq_or_ne (32 * k + j) (v.subQueue i).claims.head with heq | hne
          · rw [heq, hqueued, Function.update_self]; rfl
          · rw [Function.update_of_ne hne] }
    · exact hi.enqueue.mono rfl (Nat.le_succ _) rfl (fun _ hp => hp) (fun _ hs => hs)
        fun _ _ => ⟨rfl, rfl⟩
  · refine ⟨(v.subQueue i).claims.head, hcount.headIndex, ?_, ?_, ?_⟩
    · simp only [View.claim, Function.update_self]
    · simp only [View.claim, Function.update_self]
      have := hi.storage.tail_le
      omega
    · simp only [View.claim, Function.update_self]
      exact ⟨_, hitem, hitem⟩
  · intro e hne
    exact { SubQueue.Keeps.refl (v.subQueue i) e with
      claimant := Function.update_of_ne hne ..
      claimed := fun n hn => update_eq_of_ne hn (by rw [hqueued]; simp)
      taken := fun n hn => update_eq_of_ne hn (by rw [hqueued]; simp) }
  · refine h.pool.mono rfl ?_ rfl rfl rfl (fun _ => rfl) ?_ fun _ _ => rfl
    · intro j k hk hph
      rcases eq_or_ne j i with rfl | hne
      · simp only [View.claim, Function.update_self]
        exact ⟨hk, hph, trivial⟩
      · simp only [View.claim, Function.update_of_ne hne]
        exact ⟨hk, hph, trivial⟩
    · intro e
      rcases eq_or_ne e c with rfl | hne
      · simp only [ConcurrentQueue.setDeq, Function.update_self, hd]; rfl
      · simp only [ConcurrentQueue.setDeq, Function.update_of_ne hne]; rfl

end Rtlog.Queue
