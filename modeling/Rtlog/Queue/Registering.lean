/-
# `Rtlog.Queue.Registering` — a thread id has one producer, and a producer one id

What holds in every state of `get_or_add_implicit_producer` (`ProducerHash.Ok`), with any
number of threads in it, so that a thread id is listed once, with a producer that no other
id has, and from then on every call by a thread with that id returns that producer.

A thread that has been put in a table is found again because the table is in the chain that
its search goes through, and because entries are never taken out, so that the slots between
the hash of an id and its entry stay filled (`Probing.Placed`).  The chain is one because the
tables are made under a lock.  There is room in each because of the count: a table takes
only threads with tickets below three quarters of its size (`Tickets.Ranked`), the copies
from older tables among them, since these are at most half as large.
-/
import Rtlog.Queue.ProducerHash

namespace Rtlog.Queue

open Probing

variable {ι : Type}

/-! ## Tables -/

theorem growCapacity_spec (newCount : Nat) : ∀ n m, newCount < 2 ^ (m + n) →
    ∃ m', m ≤ m' ∧ growCapacity newCount n (2 ^ (m + 1)) = 2 ^ (m' + 1) ∧ newCount < 2 ^ m' := by
  intro n
  induction n with
  | zero =>
      intro m hm
      exact ⟨m, Nat.le_refl m, rfl, hm⟩
  | succ n ih =>
      intro m hm
      have hhalf : 2 ^ (m + 1) >>> 1 = 2 ^ m := by
        rw [Nat.shiftRight_eq_div_pow, Nat.pow_succ]
        omega
      have hdouble : 2 ^ (m + 1) <<< 1 = 2 ^ (m + 1 + 1) := by
        rw [Nat.shiftLeft_eq, Nat.pow_one, ← Nat.pow_succ]
      rw [growCapacity, hhalf, hdouble]
      split
      · obtain ⟨m', hle, heq, hlt⟩ := ih (m + 1) (by
          rw [show m + 1 + n = m + (n + 1) by omega]
          exact hm)
        exact ⟨m', by omega, heq, hlt⟩
      · next hlt => exact ⟨m, Nat.le_refl m, rfl, by omega⟩

namespace ImplicitProducerHash

variable {hash : ImplicitProducerHash ι} {m n index : Nat} {t : ι}

/-- Thread `t` is in the table. -/
def Holds (hash : ImplicitProducerHash ι) (t : ι) : Prop :=
  ∃ i < hash.capacity, hash.key i = some t

/-- A search for thread `t` is at `index`, and has not found it yet. -/
def At (hashedId : ι → Nat) (hash : ImplicitProducerHash ι) (t : ι) (index : Nat) : Prop :=
  ∃ d, hash.mask index = slot hash.capacity (hashedId t) d ∧
    Passed hash.key hash.capacity (hashedId t) d t

theorem mask_eq (h : hash.capacity = 2 ^ m) (index : Nat) :
    hash.mask index = index % hash.capacity := by
  rw [mask, h]
  exact Nat.and_two_pow_sub_one_eq_mod index m

theorem quarters (h : hash.capacity = 2 ^ (m + 2)) :
    hash.capacity = 4 * 2 ^ m ∧ hash.capacity >>> 1 = 2 * 2 ^ m ∧ hash.capacity >>> 2 = 2 ^ m := by
  have hpow : 2 ^ (m + 2) = 4 * 2 ^ m := by
    rw [Nat.pow_add]
    omega
  rw [h, Nat.shiftRight_eq_div_pow, Nat.shiftRight_eq_div_pow, hpow]
  omega

theorem hasRoom_iff (h : hash.capacity = 2 ^ (m + 2)) :
    hash.hasRoom n = true ↔ 4 * n < 3 * hash.capacity := by
  obtain ⟨hcap, hhalf, hquarter⟩ := quarters h
  rw [hasRoom, hhalf, hquarter, hcap, decide_eq_true_iff]
  omega

theorem crowded_iff (h : hash.capacity = 2 ^ (m + 2)) :
    hash.crowded n = true ↔ hash.capacity ≤ 2 * n := by
  obtain ⟨hcap, hhalf, -⟩ := quarters h
  rw [crowded, hhalf, hcap, decide_eq_true_iff]
  omega

variable {hashedId : ι → Nat}

theorem At.start (h : hash.capacity = 2 ^ m) (t : ι) : hash.At hashedId t (hashedId t) :=
  ⟨0, mask_eq h _, .zero⟩

theorem mask_lt (h : hash.capacity = 2 ^ m) (index : Nat) : hash.mask index < hash.capacity := by
  rw [mask_eq h]
  exact Nat.mod_lt _ (h ▸ Nat.two_pow_pos m)

theorem mask_mask (h : hash.capacity = 2 ^ m) (index : Nat) :
    hash.mask (hash.mask index) = hash.mask index := by
  rw [mask_eq h (hash.mask index), Nat.mod_eq_of_lt (mask_lt h index)]

theorem At.masked (h : hash.capacity = 2 ^ m) (hat : hash.At hashedId t index) :
    hash.At hashedId t (hash.mask index) := by
  obtain ⟨d, hd, hp⟩ := hat
  exact ⟨d, by rw [mask_mask h, hd], hp⟩

/-- The search goes on at the next slot. -/
theorem At.next {k : ι} (h : hash.capacity = 2 ^ m) (hat : hash.At hashedId t index)
    (hk : hash.key (hash.mask index) = some k) (hne : k ≠ t) :
    hash.At hashedId t (hash.mask index + 1) := by
  obtain ⟨d, hd, hp⟩ := hat
  refine ⟨d + 1, ?_, hp.succ (hd ▸ hk) hne⟩
  rw [mask_eq h, hd, slot, slot, Nat.mod_add_mod, Nat.add_assoc]

end ImplicitProducerHash

/-! ## What is known of a thread -/

/-- What the history of a run adds: who is counted, whose producers there are, and who is
listed. -/
structure Ghost (ι : Type) where
  tickets : Tickets ι
  own : ι → Option ProducerId
  listed : List (ι × ProducerId)

def Ghost.initial : Ghost ι := ⟨.empty, fun _ => none, []⟩

/-- Whether a thread has the lock under which tables are made. -/
def GetOrAdd.locked : GetOrAdd → Bool
  | .reloadMain _ | .mallocHash .. | .fetchSub | .clearFailed | .publish .. | .clear .. => true
  | _ => false

/-- A thread that has a producer is listed, and in a table of the chain from `main`. -/
def Registered (g : Ghost ι) (s : ProducerHash ι) (main : HashId) (t : ι) : Prop :=
  ∀ p, g.own t = some p → (t, p) ∈ g.listed ∧ ∃ k ≤ main, (s.hashes k).Holds t

/-- The thread is not in `main`, and may be put there. -/
structure Roomy (g : Ghost ι) (s : ProducerHash ι) (main : HashId) (t : ι) : Prop where
  main_le : main ≤ s.implicitProducerHash
  absent : ¬ (s.hashes main).Holds t
  live : t ∈ g.tickets.live
  ticket : 4 * g.tickets.ticket t < 3 * (s.hashes main).capacity

/-- The thread is counted, and has no producer. -/
structure Counted (g : Ghost ι) (t : ι) (newCount : Nat) : Prop where
  own : g.own t = none
  live : t ∈ g.tickets.live
  ticket : g.tickets.ticket t = newCount

/-- What holds of thread `t` at `p`. -/
def PlaceOk (hashedId : ι → Nat) (g : Ghost ι) (s : ProducerHash ι) (t : ι) : GetOrAdd → Prop
  | .idle _ | .loadMain =>
      (t ∈ g.tickets.live → g.own t ≠ none) ∧ Registered g s s.implicitProducerHash t
  | .probe main hash index =>
      (t ∈ g.tickets.live → g.own t ≠ none) ∧ Registered g s main t ∧
        main ≤ s.implicitProducerHash ∧ hash ≤ main ∧
        (∀ k ≤ main, hash < k → ¬ (s.hashes k).Holds t) ∧ (s.hashes hash).At hashedId t index
  | .lazyProbe main value index =>
      Roomy g s main t ∧ Registered g s main t ∧ value = g.own t ∧ g.own t ≠ none ∧
        (s.hashes main).At hashedId t index
  | .lazySwap main value index =>
      Roomy g s main t ∧ Registered g s main t ∧ value = g.own t ∧ g.own t ≠ none ∧
        (s.hashes main).At hashedId t index ∧ (s.hashes main).mask index = index
  | .fetchAdd main => main ≤ s.implicitProducerHash ∧ g.own t = none ∧ t ∉ g.tickets.live
  | .testAndSet main newCount | .mallocHash main newCount =>
      main ≤ s.implicitProducerHash ∧ Counted g t newCount
  | .reloadMain newCount | .loadAgain newCount => Counted g t newCount
  | .fetchSub | .undo => g.own t = none ∧ t ∈ g.tickets.live
  | .clearFailed => g.own t = none ∧ t ∉ g.tickets.live
  | .publish newHash newCount =>
      newHash < s.allocated ∧ Counted g t newCount ∧ (s.hashes newHash).crowded newCount = false
  | .clear main newCount =>
      main ≤ s.implicitProducerHash ∧ Counted g t newCount ∧
        (s.hashes main).crowded newCount = false
  | .create main => Roomy g s main t ∧ g.own t = none
  | .loadTail main producer | .pushTail main producer _ =>
      Roomy g s main t ∧ g.own t = some producer ∧ ∀ x ∈ g.listed, x.1 ≠ t
  | .insertProbe main producer index =>
      Roomy g s main t ∧ g.own t = some producer ∧ (t, producer) ∈ g.listed ∧
        (s.hashes main).At hashedId t index
  | .insertSwap main producer index =>
      Roomy g s main t ∧ g.own t = some producer ∧ (t, producer) ∈ g.listed ∧
        (s.hashes main).At hashedId t index ∧ (s.hashes main).mask index = index

/-- The table below. -/
def HashId.below : HashId → Option HashId
  | 0 => none
  | k + 1 => some k

/-- Table `k` is as large as it should be, and has threads in it that belong there. -/
structure HashOk (hashedId : ι → Nat) (g : Ghost ι) (s : ProducerHash ι) (k : HashId) : Prop where
  capacity : ∃ m, (s.hashes k).capacity = 2 ^ (m + 2)
  prev : (s.hashes k).prev = HashId.below k
  larger : ∀ j < k, 2 * (s.hashes j).capacity ≤ (s.hashes k).capacity
  placed : Placed hashedId (s.hashes k).key (s.hashes k).capacity
  entry : ∀ i < (s.hashes k).capacity, ∀ t, (s.hashes k).key i = some t →
    t ∈ g.tickets.live ∧ 4 * g.tickets.ticket t < 3 * (s.hashes k).capacity ∧
      g.own t ≠ none ∧ (s.hashes k).value i = g.own t

/-- At most one thread makes tables. -/
structure Locks (s : ProducerHash ι) : Prop where
  held : ∀ t, (s.place t).locked = true → s.implicitProducerHashResizeInProgress = true
  exclusive : ∀ t u, (s.place t).locked = true → (s.place u).locked = true → t = u
  top : (∀ t newHash newCount, s.place t ≠ .publish newHash newCount) →
    s.allocated = s.implicitProducerHash + 1
  publishing : ∀ t newHash newCount, s.place t = .publish newHash newCount →
    newHash = s.implicitProducerHash + 1 ∧ s.allocated = s.implicitProducerHash + 2
  allocating : ∀ t main newCount, s.place t = .mallocHash main newCount →
    main = s.implicitProducerHash

structure ProducerHash.Ok (hashedId : ι → Nat) (g : Ghost ι) (s : ProducerHash ι) : Prop where
  ranked : g.tickets.Ranked
  count : s.implicitProducerHashCount = g.tickets.live.length
  hash : ∀ k < s.allocated, HashOk hashedId g s k
  place : ∀ t, PlaceOk hashedId g s t (s.place t)
  locks : Locks s
  created : ∀ t p, g.own t = some p → p < s.created
  owner : ∀ t u p, g.own t = some p → g.own u = some p → t = u
  listed : ∀ x ∈ g.listed, g.own x.1 = some x.2
  list : g.listed.map Prod.snd = s.producerListTail

/-! ## Steps of other threads -/

/-- What `t` sees of a step of another thread. -/
structure Keeps (t : ι) (g g' : Ghost ι) (s s' : ProducerHash ι) : Prop where
  main : s.implicitProducerHash ≤ s'.implicitProducerHash
  allocated : s.allocated ≤ s'.allocated
  capacity : ∀ k < s.allocated, (s'.hashes k).capacity = (s.hashes k).capacity
  fills : ∀ k < s.allocated, Fills (s.hashes k).key (s'.hashes k).key
  key : ∀ k < s.allocated, ∀ i, (s'.hashes k).key i = some t → (s.hashes k).key i = some t
  live : t ∈ g'.tickets.live ↔ t ∈ g.tickets.live
  ticket : g'.tickets.ticket t = g.tickets.ticket t
  own : g'.own t = g.own t
  listed : ∀ p, (t, p) ∈ g'.listed ↔ (t, p) ∈ g.listed

variable {hashedId : ι → Nat} {g g' : Ghost ι} {s s' : ProducerHash ι} {t u : ι}

namespace Keeps

theorem holds (h : Keeps t g g' s s') {k : HashId} (hk : k < s.allocated) :
    (s'.hashes k).Holds t ↔ (s.hashes k).Holds t := by
  unfold ImplicitProducerHash.Holds
  rw [h.capacity k hk]
  constructor
  · rintro ⟨i, hi, hkey⟩
    exact ⟨i, hi, h.key k hk i hkey⟩
  · rintro ⟨i, hi, hkey⟩
    exact ⟨i, hi, h.fills k hk i t hkey⟩

theorem searching (h : Keeps t g g' s s') {k : HashId} (hk : k < s.allocated) {index : Nat}
    (hat : (s.hashes k).At hashedId t index) : (s'.hashes k).At hashedId t index := by
  obtain ⟨d, hd, hp⟩ := hat
  refine ⟨d, ?_, ?_⟩
  · rw [ImplicitProducerHash.mask, h.capacity k hk]
    exact hd
  · rw [h.capacity k hk]
    exact hp.mono (h.fills k hk)

theorem registered (h : Keeps t g g' s s') {main main' : HashId} (hle : main ≤ main')
    (hmain : main < s.allocated) (hr : Registered g s main t) : Registered g' s' main' t := by
  intro p hp
  rw [h.own] at hp
  obtain ⟨hlisted, k, hk, hholds⟩ := hr p hp
  exact ⟨(h.listed p).mpr hlisted, k, Nat.le_trans hk hle,
    (h.holds (Nat.lt_of_le_of_lt hk hmain)).mpr hholds⟩

theorem roomy (h : Keeps t g g' s s') (hmain : s.implicitProducerHash < s.allocated)
    {main : HashId} (hr : Roomy g s main t) : Roomy g' s' main t where
  main_le := Nat.le_trans hr.main_le h.main
  absent := by
    rw [h.holds (Nat.lt_of_le_of_lt hr.main_le hmain)]
    exact hr.absent
  live := h.live.mpr hr.live
  ticket := by
    rw [h.ticket, h.capacity main (Nat.lt_of_le_of_lt hr.main_le hmain)]
    exact hr.ticket

theorem counted (h : Keeps t g g' s s') {newCount : Nat} (hc : Counted g t newCount) :
    Counted g' t newCount where
  own := h.own.trans hc.own
  live := h.live.mpr hc.live
  ticket := h.ticket.trans hc.ticket

theorem unlisted (h : Keeps t g g' s s') (hn : ∀ x ∈ g.listed, x.1 ≠ t) :
    ∀ x ∈ g'.listed, x.1 ≠ t := by
  rintro ⟨u, p⟩ hx rfl
  exact hn _ ((h.listed p).mp hx) rfl

end Keeps

theorem PlaceOk.mono {p : GetOrAdd} (hk : Keeps t g g' s s')
    (hmain : s.implicitProducerHash < s.allocated) (h : PlaceOk hashedId g s t p) :
    PlaceOk hashedId g' s' t p := by
  have hlt : ∀ {k : HashId}, k ≤ s.implicitProducerHash → k < s.allocated :=
    fun hle => Nat.lt_of_le_of_lt hle hmain
  have hcalm : (t ∈ g.tickets.live → g.own t ≠ none) → t ∈ g'.tickets.live → g'.own t ≠ none := by
    intro hc hlive
    rw [hk.own]
    exact hc (hk.live.mp hlive)
  cases p with
  | idle | loadMain => exact ⟨hcalm h.1, hk.registered hk.main hmain h.2⟩
  | probe main hash index =>
      obtain ⟨hc, hr, hle, hhash, habsent, hat⟩ := h
      refine ⟨hcalm hc, hk.registered (Nat.le_refl _) (hlt hle) hr, Nat.le_trans hle hk.main, hhash,
        fun k hkm hk' => ?_, hk.searching (hlt (Nat.le_trans hhash hle)) hat⟩
      rw [hk.holds (hlt (Nat.le_trans hkm hle))]
      exact habsent k hkm hk'
  | lazyProbe main value index =>
      obtain ⟨hroom, hr, hvalue, hown, hat⟩ := h
      exact ⟨hk.roomy hmain hroom, hk.registered (Nat.le_refl _) (hlt hroom.main_le) hr,
        hvalue.trans hk.own.symm, hk.own ▸ hown, hk.searching (hlt hroom.main_le) hat⟩
  | lazySwap main value index =>
      obtain ⟨hroom, hr, hvalue, hown, hat, hmask⟩ := h
      refine ⟨hk.roomy hmain hroom, hk.registered (Nat.le_refl _) (hlt hroom.main_le) hr,
        hvalue.trans hk.own.symm, hk.own ▸ hown, hk.searching (hlt hroom.main_le) hat, ?_⟩
      rw [ImplicitProducerHash.mask, hk.capacity main (hlt hroom.main_le)]
      exact hmask
  | fetchAdd main =>
      exact ⟨Nat.le_trans h.1 hk.main, hk.own.trans h.2.1, fun hlive => h.2.2 (hk.live.mp hlive)⟩
  | testAndSet | mallocHash => exact ⟨Nat.le_trans h.1 hk.main, hk.counted h.2⟩
  | reloadMain | loadAgain => exact hk.counted h
  | fetchSub | undo => exact ⟨hk.own.trans h.1, hk.live.mpr h.2⟩
  | clearFailed => exact ⟨hk.own.trans h.1, fun hlive => h.2 (hk.live.mp hlive)⟩
  | publish newHash newCount =>
      refine ⟨Nat.lt_of_lt_of_le h.1 hk.allocated, hk.counted h.2.1, ?_⟩
      rw [ImplicitProducerHash.crowded, hk.capacity newHash h.1]
      exact h.2.2
  | clear main newCount =>
      refine ⟨Nat.le_trans h.1 hk.main, hk.counted h.2.1, ?_⟩
      rw [ImplicitProducerHash.crowded, hk.capacity main (hlt h.1)]
      exact h.2.2
  | create main => exact ⟨hk.roomy hmain h.1, hk.own.trans h.2⟩
  | loadTail | pushTail => exact ⟨hk.roomy hmain h.1, hk.own.trans h.2.1, hk.unlisted h.2.2⟩
  | insertProbe main producer index =>
      obtain ⟨hroom, hown, hlisted, hat⟩ := h
      exact ⟨hk.roomy hmain hroom, hk.own.trans hown, (hk.listed _).mpr hlisted,
        hk.searching (hlt hroom.main_le) hat⟩
  | insertSwap main producer index =>
      obtain ⟨hroom, hown, hlisted, hat, hmask⟩ := h
      refine ⟨hk.roomy hmain hroom, hk.own.trans hown, (hk.listed _).mpr hlisted,
        hk.searching (hlt hroom.main_le) hat, ?_⟩
      rw [ImplicitProducerHash.mask, hk.capacity main (hlt hroom.main_le)]
      exact hmask

end Rtlog.Queue
