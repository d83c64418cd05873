/-
# `Rtlog.Queue.Emptying` — `dequeue` from the element it has claimed

The other steps of a consumer (see `Rtlog.Queue.Claiming`):

    take         the element is taken out of its block
    setEmpty     it is gone, and if it was the last one its block is drained
    clearValue   the block is taken out of the index
    addFree      and freed

The element is in its block, which is where it was put, so that `take` finds it.
A block is drained by the one consumer whose element brings the count to 32
(`BlocksOk.setEmpty`), and two consumers never drain the same.
-/
import Rtlog.Queue.Claiming

namespace Rtlog.Queue

variable {ι κ α : Type} [DecidableEq ι] [DecidableEq κ] {v : View ι κ α}
  {q : ConcurrentQueue ι κ α} {c : κ} {i : ι}

/-! ## Taking it out -/

/-- Element `n` of producer `i` has now the status `st`. -/
def View.mark (v : View ι κ α) (i : ι) (n : Nat) (st : ItemStatus κ) : View ι κ α :=
  { v with
    subQueue := Function.update v.subQueue i
      { v.subQueue i with status := Function.update (v.subQueue i).status n st } }

/-- Only the consumer's place and one block of producer `i` change. -/
theorem PoolOk.touch (h : PoolOk v q) {v' : View ι κ α} {s : SubQueue κ α} {b : BlockId} {k : Nat}
    {block : Block α} {d : Dequeue ι α} (hown : v'.owner = v.owner)
    (hsub : v'.subQueue = Function.update v.subQueue i s) (hcount : s.count = (v.subQueue i).count)
    (hphase : ∀ k, (v.subQueue i).phase k ≠ .freed → s.phase k ≠ .freed)
    (hblock : s.block = (v.subQueue i).block) (hb : v.owner b = .block i k)
    (hd : d.oldBlock? = (q.deq c).oldBlock?) :
    PoolOk v' ((q.setBlock b block).setDeq c d) := by
  refine h.mono hown ?_ rfl rfl rfl (fun _ => rfl) ?_ ?_
  · intro j k hk hp
    rw [hsub]
    rcases eq_or_ne j i with rfl | hne
    · rw [Function.update_self, hcount, hblock]
      exact ⟨hk, hphase k hp, rfl⟩
    · rw [Function.update_of_ne hne]
      exact ⟨hk, hp, rfl⟩
  · intro e
    rcases eq_or_ne e c with rfl | hne
    · simp only [ConcurrentQueue.setDeq, Function.update_self, hd]
    · simp only [ConcurrentQueue.setDeq, Function.update_of_ne hne]; rfl
  · intro b' hidle
    refine congrArg Block.elements (Function.update_of_ne ?_ ..)
    rintro rfl
    rw [hb] at hidle
    exact hidle

theorem Good.take {x s : Size} {b : BlockId} (h : Good v q) (hd : q.deq c = .take i x s b) :
    ∃ n a, (v.subQueue i).status n = .claimed c ∧ (q.blocks b).elements (pos x) = some a ∧
      Good (v.mark i n (.taken c))
        ((q.setBlock b ((q.blocks b).setElement (pos x) none)).setDeq c (.setEmpty i s b a)) := by
  have hi := h.producer i
  have hb := hi.storage
  have hc := h.consumer c
  rw [hd] at hc
  obtain ⟨n, hx, hn, hs, rfl⟩ := hc
  obtain ⟨a, hitem, hhand⟩ := hn.item
  have hpos : pos x = n % 32 := by rw [hx, pos_word]
  have hmod : n % 32 < 32 := Nat.mod_lt _ (by decide)
  have hclaimed := hn.status_eq
  have hphase := hb.inUse_of_ne_gone hn.block_lt (by rw [hclaimed]; simp)
  have hfree : (v.subQueue i).phase (n / 32) ≠ .freed := by rw [hphase]; simp
  have hown := hb.owner _ hn.block_lt hfree
  have hlt := (List.getElem?_eq_some_iff.mp hitem).1
  have helem : (q.blocks ((v.subQueue i).block (n / 32))).elements (pos x) = some a := by
    rw [hpos, hb.elements _ hn.block_lt hfree _ hmod, Nat.div_add_mod, SubQueue.cell, hclaimed]
    exact (List.getElem?_append_left hlt).trans hitem
  have hnot : ∀ st' : ItemStatus κ, .claimed c ≠ st' → (v.subQueue i).status n ≠ st' :=
    fun st' hne heq => hne (hclaimed.symm.trans heq)
  have hgone := update_eq_iff (x := .taken c) (hnot .gone (by simp)) (by simp)
  have hsame : ∀ k, k < (v.subQueue i).count → (v.subQueue i).phase k ≠ .freed → k ≠ n / 32 →
      (v.subQueue i).block k ≠ (v.subQueue i).block (n / 32) :=
    fun k hk hp hne heq => hne (hb.block_injective hk hp hn.block_lt hfree heq)
  refine ⟨n, a, hclaimed, helem, h.consume (Function.update_eq_self i q.producers).symm rfl rfl rfl
    (fun _ _ => rfl) ?_ (fun b' j k hne hb' => update_blocks hown hb' (by simp [hne]))
    (fun b' j hne hb' => update_blocks hown hb' (by simp)) ?_ ?_ (fun _ ht => ht)
    (fun _ _ _ hb => hb) (h.pool.touch rfl rfl rfl (fun _ hp => hp) rfl hown (by rw [hd]; rfl))⟩
  · refine ⟨?_, { hi.index with }, ?_, ?_⟩
    · exact { hi.counters with
        queued := fun m => (update_eq_iff (hnot .queued (by simp)) (by simp) m).trans
          (hi.counters.queued m) }
    · exact { hb with
        counter := fun k hk hp => by
          have hcount := (hb.counter k hk hp).trans (tally_congr fun j _ => (hgone _).symm)
          refine Eq.trans ?_ hcount
          rcases eq_or_ne k (n / 32) with rfl | hne
          · simp only [ConcurrentQueue.setDeq, ConcurrentQueue.setBlock, Function.update_self,
              Block.setElement]
          · simp only [ConcurrentQueue.setDeq, ConcurrentQueue.setBlock,
              Function.update_of_ne (hsame k hk (by rw [hp]; simp) hne)]
        inUse := fun k hk hp => (hb.inUse k hk hp).imp fun j hj => hj.imp_right (mt (hgone _).mp)
        drained := fun k hk hp j hj => (hgone _).mpr (hb.drained k hk hp j hj)
        elements := fun k hk hp j hj => by
          have hold := hb.elements k hk hp j hj
          simp only [SubQueue.cell, ConcurrentQueue.setDeq, ConcurrentQueue.setBlock] at hold ⊢
          rcases eq_or_ne (32 * k + j) n with heq | hne
          · -- the element that is taken
            obtain ⟨rfl, rfl⟩ : k = n / 32 ∧ j = n % 32 := by omega
            rw [heq, Function.update_self, Function.update_self, hpos]
            exact Function.update_self ..
          · rw [Function.update_of_ne hne, ← hold]
            rcases eq_or_ne k (n / 32) with rfl | hkn
            · rw [Function.update_self]
              exact Function.update_of_ne (by omega) ..
            · rw [Function.update_of_ne (hsame k hk hp hkn)] }
    · exact hi.enqueue.mono rfl (Nat.le_refl _) rfl (fun _ hp => hp) (fun _ hs => hs)
        fun b' hb' => update_blocks hown hb' (by simp)
  · refine ⟨hhand, n, ⟨?_, ?_, a, ?_, hhand⟩, hs, ?_⟩
    · simp only [View.mark, Function.update_self]
    · simp only [View.mark, Function.update_self]
      exact hn.block_lt
    · simp only [View.mark, Function.update_self]
      exact hitem
    · simp only [View.mark, Function.update_self]
  · intro e hne
    exact { SubQueue.Keeps.refl (v.subQueue i) e with
      claimed := fun m hm => update_eq_of_ne hm (hnot _ (by simpa using hne.symm))
      taken := fun m hm => update_eq_of_ne hm (hnot _ (by simp)) }

/-! ## Leaving the block -/

/-- Element `n` of producer `i` is gone.  If it was the last of its block, `c` has drained
that, and otherwise returns. -/
def View.setEmpty (v : View ι κ α) (i : ι) (n : Nat) (c : κ) (last : Bool) : View ι κ α :=
  let s := v.subQueue i
  { v with
    subQueue := Function.update v.subQueue i
      { s with status := Function.update s.status n .gone
               phase := if last then Function.update s.phase (n / 32) (.drained c) else s.phase }
    hand := if last then v.hand else Function.update v.hand c none }

omit [DecidableEq ι] in
/-- The block of `n` has one element less to go. -/
theorem BlocksOk.setEmpty {s : SubQueue κ α} {p : ImplicitProducer} {e : Enqueue α}
    {blocks : BlockId → Block α} {owner : BlockId → Owner ι κ} {n : Nat} {f : Nat → Phase κ}
    (h : BlocksOk s p e blocks owner i) (hlt : n / 32 < s.count) (hn : s.status n = .taken c)
    (hphase : ∀ k, k ≠ n / 32 → f k = s.phase k)
    (hlast : f (n / 32) = if (blocks (s.block (n / 32))).elementsCompletelyDequeued = 31
      then .drained c else .inUse) :
    BlocksOk { s with status := Function.update s.status n .gone, phase := f } p e
      (Function.update blocks (s.block (n / 32)) { blocks (s.block (n / 32)) with
        elementsCompletelyDequeued :=
          (blocks (s.block (n / 32))).elementsCompletelyDequeued + 1 }) owner i := by
  have hmod : n % 32 < 32 := Nat.mod_lt _ (by decide)
  have huse := h.inUse_of_ne_gone hlt (by rw [hn]; nofun)
  have hfree : s.phase (n / 32) ≠ .freed := by rw [huse]; nofun
  have hold : ∀ k, f k ≠ .freed → s.phase k ≠ .freed := by
    intro k hk
    rcases eq_or_ne k (n / 32) with rfl | hne
    · exact hfree
    · exact hphase k hne ▸ hk
  have hsame : ∀ k, k < s.count → s.phase k ≠ .freed → k ≠ n / 32 →
      s.block k ≠ s.block (n / 32) :=
    fun k hk hp hne heq => hne (h.block_injective hk hp hlt hfree heq)
  -- the statuses in other blocks, and in this one
  have hother : ∀ k, k ≠ n / 32 → ∀ j < 32, Function.update s.status n .gone (32 * k + j) =
      s.status (32 * k + j) :=
    fun k hne j hj => Function.update_of_ne (by omega) ..
  have hthis : (fun j => Function.update s.status n .gone (32 * (n / 32) + j)) =
      Function.update (fun j => s.status (32 * (n / 32) + j)) (n % 32) .gone := by
    funext j
    rcases eq_or_ne j (n % 32) with rfl | hne
    · rw [Function.update_self, Nat.div_add_mod, Function.update_self]
    · rw [Function.update_of_ne hne, Function.update_of_ne (by omega)]
  have htally := tally_update_self (f := fun j => s.status (32 * (n / 32) + j)) (v := .gone) hmod
    (by rw [Nat.div_add_mod, hn]; nofun)
  rw [← hthis, ← h.counter _ hlt huse] at htally
  exact { h with
    value := fun k hk hp => h.value k hk (hold k hp)
    owner := fun k hk hp => h.owner k hk (hold k hp)
    counter := fun k hk hp => by
      rcases eq_or_ne k (n / 32) with rfl | hne
      · rw [Function.update_self]
        exact htally.symm
      · have hp' : s.phase k = .inUse := (hphase k hne).symm.trans hp
        rw [Function.update_of_ne (hsame k hk (by rw [hp']; nofun) hne)]
        refine (h.counter k hk hp').trans (tally_congr fun j hj => ?_)
        show _ ↔ Function.update s.status n .gone (32 * k + j) = .gone
        rw [hother k hne j hj]
    inUse := fun k hk hp => by
      rcases eq_or_ne k (n / 32) with rfl | hne
      · -- not the last one, since the block is still in use
        dsimp only at hp
        rw [hlast] at hp
        by_contra hall
        have hall : ∀ j < 32, Function.update s.status n .gone (32 * (n / 32) + j) = .gone := by
          intro j hj
          by_contra hj'
          exact hall ⟨j, hj, hj'⟩
        rw [tally_eq_iff.mpr hall] at htally
        rw [if_pos (by omega)] at hp
        cases hp
      · obtain ⟨j, hj, hne'⟩ := h.inUse k hk ((hphase k hne).symm.trans hp)
        exact ⟨j, hj, fun heq => hne' ((hother k hne j hj).symm.trans heq)⟩
    drained := fun k hk hp j hj => by
      dsimp only at hp
      rcases eq_or_ne k (n / 32) with rfl | hne
      · rw [hlast] at hp
        split at hp
        · next hcount =>
            rw [hcount] at htally
            exact tally_eq_iff.mp htally j hj
        · exact absurd rfl hp
      · exact (hother k hne j hj).trans (h.drained k hk (hphase k hne ▸ hp) j hj)
    elements := fun k hk hp j hj => by
      have hcell : SubQueue.cell { s with
          status := Function.update s.status n .gone, phase := f } e (32 * k + j) =
          s.cell e (32 * k + j) := by
        simp only [SubQueue.cell]
        rcases eq_or_ne (32 * k + j) n with heq | hne
        · rw [heq, Function.update_self, hn]; rfl
        · rw [Function.update_of_ne hne]
      rw [hcell, ← h.elements k hk (hold k hp) j hj]
      rcases eq_or_ne k (n / 32) with rfl | hne
      · rw [Function.update_self]
      · rw [Function.update_of_ne (hsame k hk (hold k hp) hne)] }

theorem Good.setEmpty {s : Size} {b : BlockId} {a : α} (h : Good v q)
    (hd : q.deq c = .setEmpty i s b a) :
    v.hand c = some a ∧ ∃ n, (v.subQueue i).status n = .taken c ∧
      Good (v.setEmpty i n c ((q.blocks b).elementsCompletelyDequeued = blockSize.toNat - 1))
        ((q.setBlock b { q.blocks b with
          elementsCompletelyDequeued := (q.blocks b).elementsCompletelyDequeued + 1 }).setDeq c
          (if (q.blocks b).elementsCompletelyDequeued = blockSize.toNat - 1
            then .clearValue i s b a else .idle (some (some a)))) := by
  have hi := h.producer i
  have hb := hi.storage
  have hc := h.consumer c
  rw [hd] at hc
  obtain ⟨hhand, n, hn, hs, rfl⟩ := hc
  have htaken := hn.status_eq
  have hphase := hb.inUse_of_ne_gone hn.block_lt (by rw [htaken]; nofun)
  have hown := hb.owner _ hn.block_lt (by rw [hphase]; nofun)
  have hnot : ∀ st' : ItemStatus κ, .taken c ≠ st' → (v.subQueue i).status n ≠ st' :=
    fun st' hne heq => hne (htaken.symm.trans heq)
  have hsize : blockSize.toNat - 1 = 31 := rfl
  rw [hsize]
  generalize hcount : (q.blocks ((v.subQueue i).block (n / 32))).elementsCompletelyDequeued = x
  refine ⟨hhand, n, htaken, h.consume (Function.update_eq_self i q.producers).symm rfl rfl rfl ?_ ?_
    (fun b' j k hne hb' => update_blocks hown hb' (by simp [hne]))
    (fun b' j hne hb' => update_blocks hown hb' (by nofun)) ?_ ?_ (fun _ ht => ht)
    (fun _ _ _ hb => hb) (h.pool.touch rfl rfl rfl ?_ rfl hown ?_)⟩
  · intro e hne
    by_cases hx : x = 31
    · simp only [View.setEmpty, hx, decide_true, if_true]
    · simp only [View.setEmpty, hx, decide_false]
      exact Function.update_of_ne hne ..
  · refine ⟨?_, { hi.index with }, ?_, ?_⟩
    · exact { hi.counters with
        queued := fun m => (update_eq_iff (hnot .queued (by nofun)) (by nofun) m).trans
          (hi.counters.queued m) }
    · have hset := hb.setEmpty hn.block_lt htaken
        (f := if decide (x = 31) then Function.update (v.subQueue i).phase (n / 32) (.drained c)
          else (v.subQueue i).phase) ?_ ?_
      · rw [hcount] at hset
        exact hset
      · intro k hne
        split
        · exact Function.update_of_ne hne ..
        · rfl
      · rw [hcount]
        by_cases hx : x = 31
        · rw [if_pos (decide_eq_true hx), if_pos hx, Function.update_self]
        · rw [if_neg (by simpa using hx), if_neg hx, hphase]
    · refine hi.enqueue.mono rfl (Nat.le_refl _) rfl ?_ (fun _ hs => hs)
        fun b' hb' => update_blocks hown hb' (by nofun)
      intro k hp
      rcases eq_or_ne k (n / 32) with rfl | hne
      · rw [hphase]; nofun
      · by_cases hx : x = 31
        · simp only [hx, decide_true, if_true, Function.update_of_ne hne] at hp
          exact hp
        · simpa [hx] using hp
  · by_cases hx : x = 31
    · rw [if_pos hx]
      simp only [View.setEmpty, hx, decide_true, if_true]
      refine ⟨hhand, n / 32, ?_, ?_, hs, ?_⟩
      · rw [Function.update_self]
        exact hn.block_lt
      · rw [Function.update_self]
        exact Function.update_self ..
      · rw [Function.update_self]
    · rw [if_neg hx]
      simp only [View.setEmpty, hx, decide_false]
      exact Function.update_self ..
  · intro e hne
    refine { SubQueue.Keeps.refl (v.subQueue i) e with
      claimed := fun m hm => update_eq_of_ne hm (hnot _ (by nofun))
      taken := fun m hm => update_eq_of_ne hm (hnot _ (by simpa using hne.symm))
      drained := fun k _ hk => ?_ }
    by_cases hx : x = 31
    · simp only [hx, decide_true, if_true]
      rw [Function.update_of_ne, hk]
      rintro rfl
      rw [hphase] at hk
      cases hk
    · simpa [hx] using hk
  · intro k hp
    by_cases hx : x = 31
    · simp only [hx, decide_true, if_true]
      rcases eq_or_ne k (n / 32) with rfl | hne
      · rw [Function.update_self]; nofun
      · rw [Function.update_of_ne hne]
        exact hp
    · simpa [hx] using hp
  · rw [hd]
    by_cases hx : x = 31
    · rw [if_pos hx]; rfl
    · rw [if_neg hx]; rfl

/-! ## Giving the block back -/

/-- `c` has taken block `k` of producer `i` out of the index. -/
def View.retire (v : View ι κ α) (i : ι) (k : Nat) (c : κ) : View ι κ α :=
  let s := v.subQueue i
  { v with
    subQueue := Function.update v.subQueue i
      { s with phase := Function.update s.phase k .freed }
    owner := Function.update v.owner (s.block k) (.retired c) }

/-- `c` has freed block `b`, and returns. -/
def View.release (v : View ι κ α) (b : BlockId) (c : κ) : View ι κ α :=
  { v with
    owner := Function.update v.owner b .free
    hand := Function.update v.hand c none }

omit [DecidableEq ι] in
/-- Blocks in use have different slots. -/
theorem BlocksOk.slot_injective {s : SubQueue κ α} {p : ImplicitProducer} {e : Enqueue α}
    {blocks : BlockId → Block α} {owner : BlockId → Owner ι κ} (h : BlocksOk s p e blocks owner i)
    {j k : Nat} (hj : j < s.count) (hpj : s.phase j ≠ .freed) (hk : k < s.count)
    (hpk : s.phase k ≠ .freed) (heq : slot j = slot k) : j = k := by
  have hvalue := h.value j hj hpj
  rw [heq, h.value k hk hpk] at hvalue
  exact (h.block_injective hk hpk hj hpj (Option.some.inj hvalue)).symm

omit [DecidableEq ι] in
/-- The entry of a drained block is cleared, and the block no longer counts. -/
theorem BlocksOk.retire {s : SubQueue κ α} {p : ImplicitProducer} {e : Enqueue α}
    {blocks : BlockId → Block α} {owner : BlockId → Owner ι κ} {k : Nat}
    (h : BlocksOk s p e blocks owner i) (hk : k < s.count) (hp : s.phase k = .drained c) :
    BlocksOk { s with phase := Function.update s.phase k .freed } (p.setValue (slot k) none) e
      blocks (Function.update owner (s.block k) (.retired c)) i := by
  have hfree : s.phase k ≠ .freed := by rw [hp]; simp
  have hne : ∀ j, Function.update s.phase k .freed j ≠ .freed → j ≠ k := by
    rintro j hj rfl
    exact hj (Function.update_self ..)
  have hold : ∀ j, Function.update s.phase k .freed j ≠ .freed → s.phase j ≠ .freed := by
    intro j hj
    rw [Function.update_of_ne (hne j hj)] at hj
    exact hj
  have huse : ∀ j, Function.update s.phase k .freed j = .inUse → s.phase j = .inUse := by
    intro j hj
    rw [Function.update_of_ne (hne j (by rw [hj]; simp))] at hj
    exact hj
  exact { h with
    value := fun j hj hpj => by
      have hslot : slot j ≠ slot k :=
        fun heq => hne j hpj (h.slot_injective hj (hold j hpj) hk hfree heq)
      simp only [ImplicitProducer.setValue, Function.update_of_ne hslot]
      exact h.value j hj (hold j hpj)
    owner := fun j hj hpj => by
      rw [Function.update_of_ne]
      · exact h.owner j hj (hold j hpj)
      · exact fun heq => hne j hpj (h.block_injective hj (hold j hpj) hk hfree heq)
    counter := fun j hj hpj => h.counter j hj (huse j hpj)
    inUse := fun j hj hpj => h.inUse j hj (huse j hpj)
    drained := fun j hj hpj => by
      rcases eq_or_ne j k with rfl | hjk
      · exact h.drained j hj (by rw [hp]; simp)
      · dsimp only at hpj
        rw [Function.update_of_ne hjk] at hpj
        exact h.drained j hj hpj
    elements := fun j hj hpj => h.elements j hj (hold j hpj) }

theorem Good.clearValue {s : Size} {b : BlockId} {a : α} (h : Good v q)
    (hd : q.deq c = .clearValue i s b a) :
    ∃ k, (v.subQueue i).phase k = .drained c ∧ Good (v.retire i k c)
      ((q.setProducer i ((q.producers i).setValue s none)).setDeq c (.addFree b a)) := by
  have hi := h.producer i
  have hb := hi.storage
  have hc := h.consumer c
  rw [hd] at hc
  obtain ⟨hhand, k, hk, hp, rfl, rfl⟩ := hc
  have hfree : (v.subQueue i).phase k ≠ .freed := by rw [hp]; simp
  have hown := hb.owner k hk hfree
  -- nobody else's blocks are concerned
  have hother : ∀ b' o, v.owner b' = o → o ≠ .block i k →
      Function.update v.owner ((v.subQueue i).block k) (.retired c) b' = v.owner b' := by
    intro b' o hb' hne
    refine Function.update_of_ne ?_ ..
    rintro rfl
    exact hne (hb'.symm.trans hown)
  refine ⟨k, hp, h.consume rfl rfl rfl rfl (fun _ _ => rfl) ?_
    (fun b' j l hne hb' => ⟨rfl, hother b' _ hb' (by simp [hne])⟩)
    (fun b' j _ hb' => ⟨rfl, hother b' _ hb' (by simp)⟩) ⟨hhand, Function.update_self ..⟩ ?_ ?_
    ?_ ?_⟩
  · refine ⟨{ hi.counters with }, ?_, hb.retire hk hp, ?_⟩
    · exact { hi.index with
        keys := fun s => by rw [ImplicitProducer.key_setValue]; exact hi.index.keys s
        used := fun j hj => by rw [ImplicitProducer.key_setValue]; exact hi.index.used j hj
        ahead := fun ha => by rw [ImplicitProducer.key_setValue]; exact hi.index.ahead ha }
    · refine hi.enqueue.mono rfl (Nat.le_refl _) rfl ?_ ?_
        fun b' hb' => ⟨rfl, hother b' _ hb' (by simp)⟩
      · intro j hj
        rcases eq_or_ne j k with rfl | hne
        · exact absurd (Function.update_self ..) hj
        · dsimp only at hj
          rw [Function.update_of_ne hne] at hj
          exact hj
      · intro s hs
        rw [ImplicitProducer.key_setValue]
        exact hs
  · intro e hne
    refine { SubQueue.Keeps.refl (v.subQueue i) e with drained := fun j _ hj => ?_ }
    refine (Function.update_of_ne ?_ ..).trans hj
    rintro rfl
    rw [hp] at hj
    exact hne (by simpa using hj.symm)
  · intro s hs
    rw [ImplicitProducer.key_setValue]
    exact hs
  · intro b' e _ hb'
    exact (hother b' _ hb' (by simp)).trans hb'
  · refine h.pool.pass rfl hown (by simp) ?_ (fun hidle => hidle.elim) ?_ h.pool.nodup ?_ ?_
      fun _ _ _ => rfl
    · intro b' x _ _ hx
      cases x with
      | retired e =>
          have hec : e ≠ c := fun heq => hx (congrArg _ heq)
          simp only [ConcurrentQueue.Has, ConcurrentQueue.setDeq, Function.update_of_ne hec]
          rfl
      | _ => exact Iff.rfl
    · intro _ b'
      simp only [ConcurrentQueue.Has, ConcurrentQueue.setDeq, Function.update_self, hd,
        Dequeue.oldBlock?]
      simp [eq_comm]
    · intro b' j l hb'
      have hne : b' ≠ (v.subQueue i).block k := by
        rintro rfl
        simp only [View.retire, Function.update_self] at hb'
        cases hb'
      simp only [View.retire, Function.update_of_ne hne] at hb'
      obtain ⟨hl, hpl, hbl⟩ := h.pool.block b' j l hb'
      rcases eq_or_ne j i with rfl | hji
      · simp only [View.retire, Function.update_self]
        refine ⟨hl, ?_, hbl⟩
        rw [Function.update_of_ne]
        · exact hpl
        · rintro rfl
          exact hne hbl.symm
      · simp only [View.retire, Function.update_of_ne hji]
        exact ⟨hl, hpl, hbl⟩
    · intro _ j hj
      refine (hb.elements k hk hfree j hj).trans ?_
      rw [SubQueue.cell, hb.drained k hk (by rw [hp]; simp) j hj]
      rfl

omit [DecidableEq ι] in
theorem Good.addFree {b : BlockId} {a : α} (h : Good v q) (hd : q.deq c = .addFree b a) :
    v.hand c = some a ∧ Good (v.release b c)
      ({ q with freeList := b :: q.freeList }.setDeq c (.idle (some (some a)))) := by
  have hc := h.consumer c
  rw [hd] at hc
  obtain ⟨hhand, hown⟩ := hc
  have hother : ∀ b' o, v.owner b' = o → o ≠ .retired c →
      (v.release b c).owner b' = v.owner b' := by
    intro b' o hb' hne
    refine Function.update_of_ne ?_ ..
    rintro rfl
    exact hne (hb'.symm.trans hown)
  refine ⟨hhand, ⟨?_, ?_, ?_⟩⟩
  · intro j
    exact (h.producer j).frame (fun b' k hb' => ⟨rfl, hother b' _ hb' (by simp)⟩)
      fun b' hb' => ⟨rfl, hother b' _ hb' (by simp)⟩
  · intro e
    rcases eq_or_ne e c with rfl | hne
    · simp only [ConcurrentQueue.setDeq, Function.update_self]
      exact Function.update_self ..
    · simp only [ConcurrentQueue.setDeq, Function.update_of_ne hne, View.release]
      refine (h.consumer e).mono (fun j => .refl _ e) (fun _ _ ht => ht) fun b' hb' => ?_
      exact (hother b' _ hb' (by simpa using hne)).trans hb'
  · have hmem : b ∉ q.freeList := fun hmem => by
      have hfree := (h.pool.idle b .free trivial).mpr hmem
      rw [hown] at hfree
      cases hfree
    refine h.pool.pass rfl hown (by simp) ?_ ?_ ?_ (List.nodup_cons.mpr ⟨hmem, h.pool.nodup⟩) ?_ ?_
      fun _ _ _ => rfl
    · intro b' x _ hx hx'
      cases x with
      | retired e =>
          have hec : e ≠ c := fun heq => hx (congrArg _ heq)
          simp only [ConcurrentQueue.Has, ConcurrentQueue.setDeq, Function.update_of_ne hec]
      | free => exact absurd rfl hx'
      | _ => exact Iff.rfl
    · intro _ b'
      simp only [ConcurrentQueue.Has, ConcurrentQueue.setDeq, Function.update_self, hd,
        Dequeue.oldBlock?]
      simp [eq_comm]
    · intro _ b'
      simp only [ConcurrentQueue.Has, ConcurrentQueue.setDeq, List.mem_cons]
      exact or_comm
    · intro b' j k hb'
      have hne : b' ≠ b := by
        rintro rfl
        simp only [View.release, Function.update_self] at hb'
        cases hb'
      simp only [View.release, Function.update_of_ne hne] at hb'
      exact h.pool.block b' j k hb'
    · exact fun _ => h.pool.raw b (by rw [hown]; trivial)

end Rtlog.Queue
