/-
# `Rtlog.Queue.Frame` — what a step leaves alone

A step of one thread concerns one producer, and the blocks of that.  What the
other producers and the other consumers rely on is still there:

    another consumer    what it holds, and what it has read          `DequeueOk.mono`
    the idle blocks     where they are                               `PoolOk.mono`
    another producer    its words, its blocks and who has them       `ProducerOk.frame`

and `Good.setDeq`, `Good.setEnq` put this together for the steps that only move a
thread from one place to the next.
-/
import Rtlog.Queue.View

namespace Rtlog.Queue

variable {ι κ α : Type}

/-! ## Statuses -/

section Status

variable {f : Nat → ItemStatus κ} {n : Nat} {x y : ItemStatus κ}

/-- What is not `y`, and is not `y` afterwards, does not change what is. -/
theorem update_eq_iff (hold : f n ≠ y) (hnew : x ≠ y) (m : Nat) :
    Function.update f n x m = y ↔ f m = y := by
  rcases eq_or_ne m n with rfl | hne
  · rw [Function.update_self]
    exact iff_of_false hnew hold
  · rw [Function.update_of_ne hne]

/-- Only `n` has another status. -/
theorem update_eq_of_ne {m : Nat} (hm : f m = y) (hn : f n ≠ y) :
    Function.update f n x m = y := by
  rw [Function.update_of_ne ?_, hm]
  rintro rfl
  exact hn hm

end Status

/-! ## Other consumers -/

/-- What consumer `d` relies on in `v` is still so in `v'`. -/
structure SubQueue.Keeps (v v' : SubQueue κ α) (d : κ) : Prop where
  claimant : v'.claims.claimant d = v.claims.claimant d
  claimed : ∀ n, v.status n = .claimed d → v'.status n = .claimed d
  taken : ∀ n, v.status n = .taken d → v'.status n = .taken d
  drained : ∀ k < v.count, v.phase k = .drained d → v'.phase k = .drained d
  items : v.items <+: v'.items
  count : v.count ≤ v'.count
  block : ∀ k < v.count, v'.block k = v.block k

theorem SubQueue.Keeps.refl (v : SubQueue κ α) (d : κ) : v.Keeps v d :=
  ⟨rfl, fun _ h => h, fun _ h => h, fun _ _ h => h, List.prefix_refl _, Nat.le_refl _,
    fun _ _ => rfl⟩

theorem SubQueue.Keeps.update [DecidableEq ι] {v : ι → SubQueue κ α} {i : ι} {s : SubQueue κ α}
    {d : κ} (h : (v i).Keeps s d) (j : ι) : (v j).Keeps (Function.update v i s j) d := by
  rcases eq_or_ne j i with rfl | hne
  · rw [Function.update_self]
    exact h
  · rw [Function.update_of_ne hne]
    exact .refl _ d

/-- What consumer `d` holds it still holds. -/
theorem Holding.mono {v v' : SubQueue κ α} {status : ItemStatus κ} {hand : Option α} {n : Nat}
    {d : κ} (h : Holding v status hand n) (hk : v.Keeps v' d)
    (hs : status = .claimed d ∨ status = .taken d) : Holding v' status hand n where
  status_eq := by
    rcases hs with rfl | rfl
    · exact hk.claimed n h.status_eq
    · exact hk.taken n h.status_eq
  block_lt := Nat.lt_of_lt_of_le h.block_lt hk.count
  item := by
    obtain ⟨a, ha, hhand⟩ := h.item
    obtain ⟨later, hitems⟩ := hk.items
    refine ⟨a, ?_, hhand⟩
    rw [← hitems, List.getElem?_append_left (List.getElem?_eq_some_iff.mp ha).1]
    exact ha

theorem DequeueOk.mono {v v' : ι → SubQueue κ α} {producers producers' : ι → ImplicitProducer}
    {owner owner' : BlockId → Owner ι κ} {hand : Option α} {d : κ} {x : Dequeue ι α}
    (h : DequeueOk v producers owner hand d x) (hk : ∀ i, (v i).Keeps (v' i) d)
    (hkey : ∀ i s, ((producers i).index s).key ≠ invalidBlockBase →
      ((producers' i).index s).key ≠ invalidBlockBase)
    (hown : ∀ b, owner b = .retired d → owner' b = .retired d) :
    DequeueOk v' producers' owner' hand d x := by
  cases x with
  | idle last => exact h
  | loadTail i => exact h
  | loadOvercommit i t => exact h
  | loadOptimistic i t o =>
      obtain ⟨hhand, m, ho, hc⟩ := h
      exact ⟨hhand, m, ho, (hk i).claimant.trans hc⟩
  | fetchOptimistic i o =>
      obtain ⟨hhand, m, ho, hc⟩ := h
      exact ⟨hhand, m, ho, (hk i).claimant.trans hc⟩
  | reloadTail i o x =>
      obtain ⟨hhand, l, m, ho, hx, hc⟩ := h
      exact ⟨hhand, l, m, ho, hx, (hk i).claimant.trans hc⟩
  | fetchHead i =>
      obtain ⟨hhand, m, hc⟩ := h
      exact ⟨hhand, m, (hk i).claimant.trans hc⟩
  | fetchOvercommit i =>
      obtain ⟨hhand, m, hc⟩ := h
      exact ⟨hhand, m, (hk i).claimant.trans hc⟩
  | loadIndexTail i x =>
      obtain ⟨n, hx, hn⟩ := h
      exact ⟨n, hx, hn.mono (hk i) (.inl rfl)⟩
  | loadKey i x t =>
      obtain ⟨n, hx, hn, ht⟩ := h
      exact ⟨n, hx, hn.mono (hk i) (.inl rfl), hkey i t ht⟩
  | loadValue i x s =>
      obtain ⟨n, hx, hn, hs⟩ := h
      exact ⟨n, hx, hn.mono (hk i) (.inl rfl), hs⟩
  | take i x s b =>
      obtain ⟨n, hx, hn, hs, hb⟩ := h
      exact ⟨n, hx, hn.mono (hk i) (.inl rfl), hs, hb.trans ((hk i).block _ hn.block_lt).symm⟩
  | setEmpty i s b a =>
      obtain ⟨hhand, n, hn, hs, hb⟩ := h
      exact ⟨hhand, n, hn.mono (hk i) (.inr rfl), hs,
        hb.trans ((hk i).block _ hn.block_lt).symm⟩
  | clearValue i s b a =>
      obtain ⟨hhand, k, hlt, hp, hs, hb⟩ := h
      exact ⟨hhand, k, Nat.lt_of_lt_of_le hlt (hk i).count, (hk i).drained k hlt hp, hs,
        hb.trans ((hk i).block k hlt).symm⟩
  | addFree b a => exact ⟨h.1, hown b h.2⟩
  | undefined => exact h

/-! ## Idle blocks -/

/-- The blocks are where they were, and those of a producer still its own. -/
theorem PoolOk.mono {v v' : View ι κ α} {q q' : ConcurrentQueue ι κ α} (h : PoolOk v q)
    (hown : v'.owner = v.owner)
    (hsub : ∀ i k, k < (v.subQueue i).count → (v.subQueue i).phase k ≠ .freed →
      k < (v'.subQueue i).count ∧ (v'.subQueue i).phase k ≠ .freed ∧
        (v'.subQueue i).block k = (v.subQueue i).block k)
    (hindex : q'.initialBlockPoolIndex = q.initialBlockPoolIndex)
    (hsize : q'.initialBlockPoolSize = q.initialBlockPoolSize)
    (hfree : q'.freeList = q.freeList)
    (henq : ∀ i, (q'.enq i).newBlock? = (q.enq i).newBlock?)
    (hdeq : ∀ c, (q'.deq c).oldBlock? = (q.deq c).oldBlock?)
    (hraw : ∀ b, (v.owner b).Idle → (q'.blocks b).elements = (q.blocks b).elements) :
    PoolOk v' q' where
  idle b o ho := by
    rw [hown, h.idle b o ho]
    cases o with
    | pool => simp only [ConcurrentQueue.Has, hindex, hsize]
    | free => simp only [ConcurrentQueue.Has, hfree]
    | fresh i => simp only [ConcurrentQueue.Has, henq]
    | block i k => exact Iff.rfl
    | retired c => simp only [ConcurrentQueue.Has, hdeq]
  nodup := by rw [hfree]; exact h.nodup
  block b i k hb := by
    rw [hown] at hb
    obtain ⟨hlt, hp, hblock⟩ := h.block b i k hb
    obtain ⟨hlt', hp', hblock'⟩ := hsub i k hlt hp
    exact ⟨hlt', hp', hblock'.trans hblock⟩
  raw b hb := by
    rw [hown] at hb
    rw [hraw b hb]
    exact h.raw b hb

/-- Block `b` goes from `o` to `o'`. -/
theorem PoolOk.pass {v v' : View ι κ α} {q q' : ConcurrentQueue ι κ α} (h : PoolOk v q)
    {b : BlockId} {o o' : Owner ι κ} (hown : v'.owner = Function.update v.owner b o')
    (hb : v.owner b = o) (hne : o ≠ o')
    (hsame : ∀ b' x, x.Idle → x ≠ o → x ≠ o' → (q'.Has b' x ↔ q.Has b' x))
    (hfrom : o.Idle → ∀ b', q'.Has b' o ↔ q.Has b' o ∧ b' ≠ b)
    (hto : o'.Idle → ∀ b', q'.Has b' o' ↔ q.Has b' o' ∨ b' = b)
    (hnodup : q'.freeList.Nodup)
    (hblock : ∀ b' i k, v'.owner b' = .block i k → k < (v'.subQueue i).count ∧
      (v'.subQueue i).phase k ≠ .freed ∧ (v'.subQueue i).block k = b')
    (hraw : o'.Idle → ∀ j < 32, (q'.blocks b).elements j = none)
    (hblocks : ∀ b', b' ≠ b → (v.owner b').Idle →
      (q'.blocks b').elements = (q.blocks b').elements) :
    PoolOk v' q' where
  idle b' x hx := by
    rw [hown]
    rcases eq_or_ne b' b with rfl | hbb
    · rw [Function.update_self]
      by_cases hxo : x = o'
      · subst hxo
        exact iff_of_true rfl ((hto hx _).mpr (.inr rfl))
      · refine iff_of_false (fun heq => hxo heq.symm) fun hhas => ?_
        by_cases hxold : x = o
        · subst hxold
          exact ((hfrom hx _).mp hhas).2 rfl
        · have hhas := (h.idle _ x hx).mpr ((hsame _ x hx hxold hxo).mp hhas)
          exact hxold (hhas.symm.trans hb)
    · rw [Function.update_of_ne hbb, h.idle b' x hx]
      by_cases hxo : x = o'
      · subst hxo
        exact ⟨fun hhas => (hto hx _).mpr (.inl hhas),
          fun hhas => ((hto hx _).mp hhas).resolve_right hbb⟩
      · by_cases hxold : x = o
        · subst hxold
          exact ⟨fun hhas => (hfrom hx _).mpr ⟨hhas, hbb⟩, fun hhas => ((hfrom hx _).mp hhas).1⟩
        · exact (hsame b' x hx hxold hxo).symm
  nodup := hnodup
  block := hblock
  raw b' hidle := by
    rw [hown] at hidle
    rcases eq_or_ne b' b with rfl | hbb
    · rw [Function.update_self] at hidle
      exact hraw hidle
    · rw [Function.update_of_ne hbb] at hidle
      rw [hblocks b' hbb hidle]
      exact h.raw b' hidle

/-! ## Other producers -/

theorem Extending.mono {v v' : SubQueue κ α} (h : Extending v)
    (htail : v'.claims.tail = v.claims.tail) (hhead : v.claims.head ≤ v'.claims.head)
    (hcount : v'.count = v.count) : Extending v' where
  boundary := by rw [hcount, htail]; exact h.boundary
  room := by rw [hcount]; exact Nat.le_trans h.room (Nat.add_le_add_right hhead _)

theorem Inserting.mono {v v' : SubQueue κ α} {s : Size} (h : Inserting v s)
    (htail : v'.claims.tail = v.claims.tail) (hhead : v.claims.head ≤ v'.claims.head)
    (hcount : v'.count = v.count) (hphase : ∀ k, v'.phase k ≠ .freed → v.phase k ≠ .freed) :
    Inserting v' s where
  toExtending := h.toExtending.mono htail hhead hcount
  slot_eq := by rw [hcount]; exact h.slot_eq
  vacant k hk hp := by
    rw [hcount] at hk ⊢
    exact h.vacant k hk (hphase k hp)

/-- Elements being claimed and blocks being freed do not disturb a thread in `enqueue`. -/
theorem EnqueueOk.mono {v v' : SubQueue κ α} {p p' : ImplicitProducer}
    {blocks blocks' : BlockId → Block α} {owner owner' : BlockId → Owner ι κ} {i : ι}
    {e : Enqueue α} (h : EnqueueOk v p blocks owner i e)
    (htail : v'.claims.tail = v.claims.tail) (hhead : v.claims.head ≤ v'.claims.head)
    (hcount : v'.count = v.count) (hphase : ∀ k, v'.phase k ≠ .freed → v.phase k ≠ .freed)
    (hkey : ∀ s, (p.index s).key ≠ invalidBlockBase → (p'.index s).key ≠ invalidBlockBase)
    (hb : ∀ b, owner b = .fresh i → blocks' b = blocks b ∧ owner' b = owner b) :
    EnqueueOk v' p' blocks' owner' i e := by
  cases e with
  | idle last => simp only [EnqueueOk, htail, hcount] at h ⊢; exact h
  | loadHead a => simp only [EnqueueOk, htail, hcount] at h ⊢; exact h
  | insertEntry a => exact Extending.mono h htail hhead hcount
  | storeKey a s => exact Inserting.mono h htail hhead hcount hphase
  | storeTail a s => exact ⟨h.1.mono htail hhead hcount hphase, hkey s h.2⟩
  | loadPool a s => exact Inserting.mono h htail hhead hcount hphase
  | fetchPool a s => exact Inserting.mono h htail hhead hcount hphase
  | tryGet a s => exact Inserting.mono h htail hhead hcount hphase
  | rewind s => exact Inserting.mono h htail hhead hcount hphase
  | unpublish s => exact Inserting.mono h htail hhead hcount hphase
  | resetEmpty a s b =>
      exact ⟨h.1.mono htail hhead hcount hphase, (hb b h.2).2.trans h.2⟩
  | publish a s b =>
      obtain ⟨hins, hown, hempty⟩ := h
      exact ⟨hins.mono htail hhead hcount hphase, (hb b hown).2.trans hown,
        (hb b hown).1 ▸ hempty⟩
  | construct a => simp only [EnqueueOk, htail, hcount] at h ⊢; exact h
  | storeTailIndex a => simp only [EnqueueOk, htail, hcount] at h ⊢; exact h
  | undefined => exact h

/-- A block of producer `i` is no block of another. -/
theorem update_blocks {v : View ι κ α} {q : ConcurrentQueue ι κ α} {i : ι} {b b' : BlockId}
    {o : Owner ι κ} {k : Nat} {block : Block α}
    (hb : v.owner b = .block i k) (hb' : v.owner b' = o) (hne : o ≠ .block i k) :
    Function.update q.blocks b block b' = q.blocks b' ∧ v.owner b' = v.owner b' := by
  refine ⟨Function.update_of_ne ?_ .., rfl⟩
  rintro rfl
  exact hne (hb'.symm.trans hb)

variable [DecidableEq κ]

/-- Two blocks in use are not the same. -/
theorem BlocksOk.block_injective {s : SubQueue κ α} {p : ImplicitProducer} {e : Enqueue α}
    {blocks : BlockId → Block α} {owner : BlockId → Owner ι κ} {i : ι}
    (h : BlocksOk s p e blocks owner i)
    {j k : Nat} (hj : j < s.count) (hpj : s.phase j ≠ .freed) (hk : k < s.count)
    (hpk : s.phase k ≠ .freed) (heq : s.block j = s.block k) : j = k := by
  have hown := h.owner j hj hpj
  rw [heq, h.owner k hk hpk] at hown
  cases hown
  rfl

/-- A block that still has an element is in use. -/
theorem BlocksOk.inUse_of_ne_gone {s : SubQueue κ α} {p : ImplicitProducer} {e : Enqueue α}
    {blocks : BlockId → Block α} {owner : BlockId → Owner ι κ} {i : ι}
    (h : BlocksOk s p e blocks owner i) {n : Nat} (hlt : n / 32 < s.count)
    (hn : s.status n ≠ .gone) :
    s.phase (n / 32) = .inUse := by
  by_contra hp
  have hgone := h.drained (n / 32) hlt hp (n % 32) (Nat.mod_lt _ (by decide))
  rw [Nat.div_add_mod] at hgone
  exact hn hgone

/-- The blocks of `i` are what they were. -/
theorem BlocksOk.frame {v : SubQueue κ α} {p : ImplicitProducer} {e : Enqueue α}
    {blocks blocks' : BlockId → Block α} {owner owner' : BlockId → Owner ι κ} {i : ι}
    (h : BlocksOk v p e blocks owner i)
    (hb : ∀ b k, owner b = .block i k → blocks' b = blocks b ∧ owner' b = owner b) :
    BlocksOk v p e blocks' owner' i where
  tail_le := h.tail_le
  le_tail := h.le_tail
  le_head := h.le_head
  tailBlock := h.tailBlock
  value := h.value
  owner k hk hp := (hb _ k (h.owner k hk hp)).2.trans (h.owner k hk hp)
  counter k hk hp := by
    rw [(hb _ k (h.owner k hk (by rw [hp]; nofun))).1]
    exact h.counter k hk hp
  inUse := h.inUse
  drained := h.drained
  elements k hk hp := by
    rw [(hb _ k (h.owner k hk hp)).1]
    exact h.elements k hk hp

theorem ProducerOk.frame {v : SubQueue κ α} {p : ImplicitProducer} {e : Enqueue α}
    {blocks blocks' : BlockId → Block α} {owner owner' : BlockId → Owner ι κ} {i : ι}
    (h : ProducerOk v p e blocks owner i)
    (hblock : ∀ b k, owner b = .block i k → blocks' b = blocks b ∧ owner' b = owner b)
    (hfresh : ∀ b, owner b = .fresh i → blocks' b = blocks b ∧ owner' b = owner b) :
    ProducerOk v p e blocks' owner' i :=
  ⟨h.counters, h.index, h.storage.frame hblock,
    h.enqueue.mono rfl (Nat.le_refl _) rfl (fun _ hp => hp) (fun _ hs => hs) hfresh⟩

/-! ## Moving a thread -/

variable {v : View ι κ α} {q : ConcurrentQueue ι κ α}

/-- A consumer goes on to a place where it has what it relies on. -/
theorem Good.setDeq (h : Good v q) {c : κ} {d : Dequeue ι α}
    (hd : DequeueOk v.subQueue q.producers v.owner (v.hand c) c d)
    (hold : d.oldBlock? = (q.deq c).oldBlock?) : Good v (q.setDeq c d) where
  producer := h.producer
  consumer e := by
    rcases eq_or_ne e c with rfl | hne
    · simp only [ConcurrentQueue.setDeq, Function.update_self]
      exact hd
    · simp only [ConcurrentQueue.setDeq, Function.update_of_ne hne]
      exact h.consumer e
  pool := by
    refine h.pool.mono rfl (fun _ _ hk hp => ⟨hk, hp, rfl⟩) rfl rfl rfl (fun _ => rfl) ?_
      fun _ _ => rfl
    intro e
    rcases eq_or_ne e c with rfl | hne
    · simp only [ConcurrentQueue.setDeq, Function.update_self, hold]
    · simp only [ConcurrentQueue.setDeq, Function.update_of_ne hne]

variable [DecidableEq ι]

/-- A producer goes on to a place where it has what it relies on, nothing else being
changed. -/
theorem Good.setEnq (h : Good v q) {i : ι} {e : Enqueue α}
    (he : EnqueueOk (v.subQueue i) (q.producers i) q.blocks v.owner i e)
    (hahead : e.ahead = (q.enq i).ahead) (hpend : e.pending = (q.enq i).pending)
    (hnew : e.newBlock? = (q.enq i).newBlock?) : Good v (q.setEnq i e) where
  producer j := by
    rcases eq_or_ne j i with rfl | hne
    · simp only [ConcurrentQueue.setEnq, Function.update_self]
      have hj := h.producer j
      refine ⟨hj.counters, ?_, ?_, he⟩
      · have hi := hj.index
        exact ⟨hahead ▸ hi.tail, hi.keys, hi.used, fun ha => hi.ahead (hahead ▸ ha)⟩
      · have hb := hj.storage
        have hcell : ∀ n, (v.subQueue j).cell e n = (v.subQueue j).cell (q.enq j) n := by
          intro n
          rw [SubQueue.cell, SubQueue.cell, hpend]
        refine { hb with elements := ?_ }
        intro k hk hp m hm
        rw [hcell]
        exact hb.elements k hk hp m hm
    · simp only [ConcurrentQueue.setEnq, Function.update_of_ne hne]
      exact h.producer j
  consumer := h.consumer
  pool := by
    refine h.pool.mono rfl (fun _ _ hk hp => ⟨hk, hp, rfl⟩) rfl rfl rfl ?_ (fun _ => rfl)
      fun _ _ => rfl
    intro j
    rcases eq_or_ne j i with rfl | hne
    · simp only [ConcurrentQueue.setEnq, Function.update_self, hnew]
    · simp only [ConcurrentQueue.setEnq, Function.update_of_ne hne]

/-! ## One thread, one producer -/

/-- A step of consumer `c` on producer `i`. -/
theorem Good.consume {v' : View ι κ α} {q' : ConcurrentQueue ι κ α} (h : Good v q) {c : κ} {i : ι}
    {d : Dequeue ι α} {s : SubQueue κ α} {p : ImplicitProducer}
    (hproducers : q'.producers = Function.update q.producers i p) (henq : q'.enq = q.enq)
    (hdeq : q'.deq = Function.update q.deq c d)
    (hsub : v'.subQueue = Function.update v.subQueue i s)
    (hhand : ∀ e, e ≠ c → v'.hand e = v.hand e)
    (hi : ProducerOk s p (q.enq i) q'.blocks v'.owner i)
    (hblock : ∀ b j k, j ≠ i → v.owner b = .block j k →
      q'.blocks b = q.blocks b ∧ v'.owner b = v.owner b)
    (hfresh : ∀ b j, j ≠ i → v.owner b = .fresh j →
      q'.blocks b = q.blocks b ∧ v'.owner b = v.owner b)
    (hc : DequeueOk v'.subQueue q'.producers v'.owner (v'.hand c) c d)
    (hkeeps : ∀ e, e ≠ c → (v.subQueue i).Keeps s e)
    (hkeys : ∀ t, ((q.producers i).index t).key ≠ invalidBlockBase →
      (p.index t).key ≠ invalidBlockBase)
    (hretired : ∀ b e, e ≠ c → v.owner b = .retired e → v'.owner b = .retired e)
    (hpool : PoolOk v' q') : Good v' q' where
  producer j := by
    rw [hproducers, hsub, henq]
    rcases eq_or_ne j i with rfl | hne
    · rw [Function.update_self, Function.update_self]
      exact hi
    · rw [Function.update_of_ne hne, Function.update_of_ne hne]
      exact (h.producer j).frame (fun b k hb => hblock b j k hne hb) fun b hb => hfresh b j hne hb
  consumer e := by
    rw [hdeq]
    rcases eq_or_ne e c with rfl | hne
    · rw [Function.update_self]
      exact hc
    · rw [Function.update_of_ne hne, hhand e hne]
      refine (h.consumer e).mono ?_ ?_ fun b hb => hretired b e hne hb
      · intro j
        rw [hsub]
        exact (hkeeps e hne).update j
      · intro j t ht
        rw [hproducers]
        rcases eq_or_ne j i with rfl | hji
        · rw [Function.update_self]
          exact hkeys t ht
        · rw [Function.update_of_ne hji]
          exact ht
  pool := hpool

/-- A step of the thread of producer `i`. -/
theorem Good.produce {v' : View ι κ α} {q' : ConcurrentQueue ι κ α} (h : Good v q) {i : ι}
    {e : Enqueue α} {s : SubQueue κ α} {p : ImplicitProducer}
    (hproducers : q'.producers = Function.update q.producers i p)
    (henq : q'.enq = Function.update q.enq i e) (hdeq : q'.deq = q.deq)
    (hsub : v'.subQueue = Function.update v.subQueue i s) (hhand : v'.hand = v.hand)
    (hi : ProducerOk s p e q'.blocks v'.owner i)
    (hblock : ∀ b j k, j ≠ i → v.owner b = .block j k →
      q'.blocks b = q.blocks b ∧ v'.owner b = v.owner b)
    (hfresh : ∀ b j, j ≠ i → v.owner b = .fresh j →
      q'.blocks b = q.blocks b ∧ v'.owner b = v.owner b)
    (hkeeps : ∀ c, (v.subQueue i).Keeps s c)
    (hkeys : ∀ t, ((q.producers i).index t).key ≠ invalidBlockBase →
      (p.index t).key ≠ invalidBlockBase)
    (hretired : ∀ b c, v.owner b = .retired c → v'.owner b = .retired c)
    (hpool : PoolOk v' q') : Good v' q' where
  producer j := by
    rw [hproducers, hsub, henq]
    rcases eq_or_ne j i with rfl | hne
    · rw [Function.update_self, Function.update_self, Function.update_self]
      exact hi
    · rw [Function.update_of_ne hne, Function.update_of_ne hne, Function.update_of_ne hne]
      exact (h.producer j).frame (fun b k hb => hblock b j k hne hb) fun b hb => hfresh b j hne hb
  consumer c := by
    rw [hdeq, hhand]
    refine (h.consumer c).mono ?_ ?_ fun b hb => hretired b c hb
    · intro j
      rw [hsub]
      exact (hkeeps c).update j
    · intro j t ht
      rw [hproducers]
      rcases eq_or_ne j i with rfl | hji
      · rw [Function.update_self]
        exact hkeys t ht
      · rw [Function.update_of_ne hji]
        exact ht
  pool := hpool

end Rtlog.Queue
