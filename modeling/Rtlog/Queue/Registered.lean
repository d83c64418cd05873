/-
# `Rtlog.Queue.Registered` — the steps of `get_or_add_implicit_producer`

`ProducerHash.Ok` is kept by all that a step does to what the threads share.  One lemma for
each: counting in and out, the lock, a new table, its publication, a new producer, the list,
an entry.
-/
import Rtlog.Queue.Registering

namespace Rtlog.Queue

open Probing

variable {ι : Type} {hashedId : ι → Nat} {g g' : Ghost ι} {s s' : ProducerHash ι} {t u : ι}

theorem HashOk.mono {k : HashId} (h : HashOk hashedId g s k)
    (hsame : ∀ u, g.own u ≠ none → (u ∈ g.tickets.live → u ∈ g'.tickets.live) ∧
      g'.tickets.ticket u = g.tickets.ticket u ∧ g'.own u = g.own u)
    (hhashes : ∀ j ≤ k, s'.hashes j = s.hashes j) : HashOk hashedId g' s' k := by
  have hk := hhashes k (Nat.le_refl k)
  refine ⟨hk ▸ h.capacity, hk ▸ h.prev, fun j hj => ?_, hk ▸ h.placed, ?_⟩
  · rw [hk, hhashes j (Nat.le_of_lt hj)]
    exact h.larger j hj
  · rw [hk]
    intro i hi u hu
    obtain ⟨hlive, hticket, hown, hvalue⟩ := h.entry i hi u hu
    obtain ⟨hlive', hticket', hown'⟩ := hsame u hown
    rw [hticket', hown']
    exact ⟨hlive' hlive, hticket, hown, hvalue⟩

/-- What is in a table of the chain is no thread without a producer. -/
theorem HashOk.not_holds {k : HashId} (h : HashOk hashedId g s k) (hown : g.own t = none) :
    ¬ (s.hashes k).Holds t := by
  rintro ⟨i, hi, hkey⟩
  exact (h.entry i hi t hkey).2.2.1 hown

theorem Keeps.refl (t : ι) (g : Ghost ι) {s s' : ProducerHash ι}
    (hmain : s'.implicitProducerHash = s.implicitProducerHash)
    (hallocated : s'.allocated = s.allocated) (hhashes : s'.hashes = s.hashes) :
    Keeps t g g s s' where
  main := Nat.le_of_eq hmain.symm
  allocated := Nat.le_of_eq hallocated.symm
  capacity k _ := by rw [hhashes]
  fills k _ := hhashes ▸ .refl
  key k _ i hi := by rwa [hhashes] at hi
  live := Iff.rfl
  ticket := rfl
  own := rfl
  listed _ := Iff.rfl

theorem Keeps.same (t : ι) (g : Ghost ι) (s : ProducerHash ι) : Keeps t g g s s :=
  .refl t g rfl rfl rfl

theorem PlaceOk.congr {p : GetOrAdd} (h : PlaceOk hashedId g s t p)
    (hlt : s.implicitProducerHash < s.allocated)
    (hmain : s'.implicitProducerHash = s.implicitProducerHash)
    (hallocated : s'.allocated = s.allocated) (hhashes : s'.hashes = s.hashes) :
    PlaceOk hashedId g s' t p :=
  h.mono (.refl t g hmain hallocated hhashes) hlt

variable [DecidableEq ι]

/-! ## The lock -/

theorem Locks.change {p : GetOrAdd} (h : Locks s) (hplace : s'.place = Function.update s.place t p)
    (hheld : p.locked = true → s'.implicitProducerHashResizeInProgress = true)
    (hothers : ∀ u, u ≠ t → (s.place u).locked = true → p.locked = false ∧
      s'.implicitProducerHashResizeInProgress = true ∧
      s'.implicitProducerHash = s.implicitProducerHash ∧ s'.allocated = s.allocated)
    (htop : (∀ newHash newCount, p ≠ .publish newHash newCount) →
      (∀ u newHash newCount, u ≠ t → s.place u ≠ .publish newHash newCount) →
        s'.allocated = s'.implicitProducerHash + 1)
    (hpublish : ∀ newHash newCount, p = .publish newHash newCount →
      newHash = s'.implicitProducerHash + 1 ∧ s'.allocated = s'.implicitProducerHash + 2)
    (hmalloc : ∀ main newCount, p = .mallocHash main newCount → main = s'.implicitProducerHash) :
    Locks s' := by
  have hself : s'.place t = p := by rw [hplace, Function.update_self]
  have hother : ∀ u, u ≠ t → s'.place u = s.place u := fun u hu => by
    rw [hplace, Function.update_of_ne hu]
  constructor
  · intro u hu
    rcases eq_or_ne u t with rfl | hne
    · rw [hself] at hu
      exact hheld hu
    · rw [hother u hne] at hu
      exact (hothers u hne hu).2.1
  · intro u v hu hv
    rcases eq_or_ne u t with rfl | hu'
    · rcases eq_or_ne v u with rfl | hv'
      · rfl
      · rw [hself] at hu
        rw [hother v hv'] at hv
        rw [(hothers v hv' hv).1] at hu
        cases hu
    · rw [hother u hu'] at hu
      rcases eq_or_ne v t with rfl | hv'
      · rw [hself, (hothers u hu' hu).1] at hv
        cases hv
      · rw [hother v hv'] at hv
        exact h.exclusive u v hu hv
  · intro hnone
    refine htop (fun a b hp => hnone t a b (hself.trans hp)) fun u a b hu hp => ?_
    exact hnone u a b ((hother u hu).trans hp)
  · intro u a b hu
    rcases eq_or_ne u t with rfl | hne
    · exact hpublish a b (hself.symm.trans hu)
    · rw [hother u hne] at hu
      obtain ⟨-, -, hmain, hallocated⟩ := hothers u hne (by rw [hu]; rfl)
      rw [hmain, hallocated]
      exact h.publishing u a b hu
  · intro u a b hu
    rcases eq_or_ne u t with rfl | hne
    · exact hmalloc a b (hself.symm.trans hu)
    · rw [hother u hne] at hu
      obtain ⟨-, -, hmain, -⟩ := hothers u hne (by rw [hu]; rfl)
      rw [hmain]
      exact h.allocating u a b hu

omit [DecidableEq ι] in
/-- Nobody else has the lock. -/
theorem Locks.alone (h : Locks s) (hlocked : (s.place t).locked = true) (hu : u ≠ t)
    (hul : (s.place u).locked = true) : False :=
  hu (h.exclusive u t hul hlocked)

omit [DecidableEq ι] in
/-- The newest table is the current one, if no thread that has the lock is about to change
that. -/
theorem Locks.allocated_eq (h : Locks s)
    (ht : ∀ newHash newCount, s.place t ≠ .publish newHash newCount)
    (hothers : ∀ u newHash newCount, u ≠ t → s.place u ≠ .publish newHash newCount) :
    s.allocated = s.implicitProducerHash + 1 := by
  refine h.top fun u a b hu => ?_
  by_cases hut : u = t
  · exact ht a b (hut ▸ hu)
  · exact hothers u a b hut hu

omit [DecidableEq ι] in
theorem Locks.allocated_of_locked (h : Locks s) (hlocked : (s.place t).locked = true)
    (ht : ∀ newHash newCount, s.place t ≠ .publish newHash newCount) :
    s.allocated = s.implicitProducerHash + 1 :=
  h.allocated_eq ht fun _ _ _ hu hup => h.alone hlocked hu (by rw [hup]; rfl)

/-- A step that has nothing to do with the lock. -/
theorem Locks.free {p : GetOrAdd} (h : Locks s) (hplace : s'.place = Function.update s.place t p)
    (hmain : s'.implicitProducerHash = s.implicitProducerHash)
    (hallocated : s'.allocated = s.allocated)
    (hflag : s'.implicitProducerHashResizeInProgress = s.implicitProducerHashResizeInProgress)
    (ht : (s.place t).locked = false) (hp : p.locked = false) : Locks s' := by
  refine h.change hplace (fun hl => ?_) (fun u _ hl => ⟨hp, hflag.trans (h.held u hl), hmain,
    hallocated⟩) (fun _ hothers => ?_) (fun a b heq => ?_) fun a b heq => ?_
  · rw [hp] at hl
    cases hl
  · rw [hmain, hallocated]
    refine h.allocated_eq (fun a b heq => ?_) hothers
    rw [heq] at ht
    cases ht
  · rw [heq] at hp
    cases hp
  · rw [heq] at hp
    cases hp

/-- A step of the thread that has the lock, and keeps it. -/
theorem Locks.keep {p : GetOrAdd} (h : Locks s) (hplace : s'.place = Function.update s.place t p)
    (hmain : s'.implicitProducerHash = s.implicitProducerHash)
    (hallocated : s'.allocated = s.allocated)
    (hflag : s'.implicitProducerHashResizeInProgress = s.implicitProducerHashResizeInProgress)
    (ht : (s.place t).locked = true)
    (hpublish : ∀ newHash newCount, s.place t ≠ .publish newHash newCount)
    (hp : ∀ newHash newCount, p ≠ .publish newHash newCount)
    (hmalloc : ∀ main newCount, p = .mallocHash main newCount → main = s.implicitProducerHash) :
    Locks s' := by
  refine h.change hplace (fun _ => hflag.trans (h.held t ht))
    (fun u hu hl => (h.alone ht hu hl).elim) (fun _ _ => ?_) (fun a b heq => absurd heq (hp a b))
    fun a b heq => ?_
  · rw [hmain, hallocated]
    exact h.allocated_of_locked ht hpublish
  · rw [hmain]
    exact hmalloc a b heq

/-- The lock is given back. -/
theorem Locks.release {p : GetOrAdd} (h : Locks s)
    (hplace : s'.place = Function.update s.place t p)
    (hmain : s'.implicitProducerHash = s.implicitProducerHash)
    (hallocated : s'.allocated = s.allocated) (ht : (s.place t).locked = true)
    (hpublish : ∀ newHash newCount, s.place t ≠ .publish newHash newCount)
    (hp : p.locked = false) : Locks s' := by
  refine h.change hplace (fun hl => ?_) (fun u hu hl => (h.alone ht hu hl).elim) (fun _ _ => ?_)
    (fun a b heq => ?_) fun a b heq => ?_
  · rw [hp] at hl
    cases hl
  · rw [hmain, hallocated]
    exact h.allocated_of_locked ht hpublish
  · rw [heq] at hp
    cases hp
  · rw [heq] at hp
    cases hp

namespace ProducerHash

/-! ## What a step does -/

namespace Ok

omit [DecidableEq ι] in
theorem main_lt (h : s.Ok hashedId g) : s.implicitProducerHash < s.allocated := by
  by_cases hp : ∃ t newHash newCount, s.place t = .publish newHash newCount
  · obtain ⟨t, newHash, newCount, hp⟩ := hp
    rw [(h.locks.publishing t newHash newCount hp).2]
    exact Nat.lt_succ_of_lt (Nat.lt_succ_self _)
  · rw [h.locks.top fun t a b hplace => hp ⟨t, a, b, hplace⟩]
    exact Nat.lt_succ_self _

omit [DecidableEq ι] in
theorem hash_of_le (h : s.Ok hashedId g) {k : HashId} (hk : k ≤ s.implicitProducerHash) :
    HashOk hashedId g s k := h.hash k (Nat.lt_of_le_of_lt hk h.main_lt)

omit [DecidableEq ι] in
theorem atPlace {p : GetOrAdd} (h : s.Ok hashedId g) (hp : s.place t = p) :
    PlaceOk hashedId g s t p := hp ▸ h.place t

/-- Thread `t` goes to `p`, and what is shared changes. -/
theorem change {p : GetOrAdd} (h : s.Ok hashedId g)
    (hplace : s'.place = Function.update s.place t p)
    (hkeeps : ∀ u, u ≠ t → Keeps u g g' s s') (hp : PlaceOk hashedId g' s' t p)
    (hranked : g'.tickets.Ranked) (hcount : s'.implicitProducerHashCount = g'.tickets.live.length)
    (hhash : ∀ k < s'.allocated, HashOk hashedId g' s' k) (hlocks : Locks s')
    (hcreated : ∀ t p, g'.own t = some p → p < s'.created)
    (howner : ∀ t u p, g'.own t = some p → g'.own u = some p → t = u)
    (hlisted : ∀ x ∈ g'.listed, g'.own x.1 = some x.2)
    (hlist : g'.listed.map Prod.snd = s'.producerListTail) : s'.Ok hashedId g' where
  ranked := hranked
  count := hcount
  hash := hhash
  place u := by
    rw [hplace]
    rcases eq_or_ne u t with rfl | hne
    · rw [Function.update_self]
      exact hp
    · rw [Function.update_of_ne hne]
      exact (h.place u).mono (hkeeps u hne) h.main_lt
  locks := hlocks
  created := hcreated
  owner := howner
  listed := hlisted
  list := hlist

/-- Nothing changes but where thread `t` is, and perhaps the lock. -/
theorem move {p : GetOrAdd} (h : s.Ok hashedId g) (flag : Bool)
    (hp : PlaceOk hashedId g s t p)
    (hlocks : Locks ({ s with implicitProducerHashResizeInProgress := flag }.goto t p)) :
    ({ s with implicitProducerHashResizeInProgress := flag }.goto t p).Ok hashedId g :=
  h.change rfl (fun u _ => .refl u g rfl rfl rfl) (hp.congr h.main_lt rfl rfl rfl)
    h.ranked h.count
    (fun k hk => (h.hash k hk).mono (fun _ _ => ⟨id, rfl, rfl⟩) fun _ _ => rfl) hlocks h.created
    h.owner h.listed h.list

theorem free {p : GetOrAdd} (h : s.Ok hashedId g) (ht : (s.place t).locked = false)
    (hp : PlaceOk hashedId g s t p) (hfree : p.locked = false) : (s.goto t p).Ok hashedId g :=
  h.move s.implicitProducerHashResizeInProgress hp (h.locks.free rfl rfl rfl rfl ht hfree)

/-- Thread `t` counts itself in. -/
theorem take {p : GetOrAdd} (h : s.Ok hashedId g) (ht : (s.place t).locked = false)
    (hown : g.own t = none) (hlive : t ∉ g.tickets.live)
    (hp : PlaceOk hashedId { g with tickets := g.tickets.take t } s t p)
    (hfree : p.locked = false) :
    ({ s with implicitProducerHashCount := s.implicitProducerHashCount + 1 }.goto t p).Ok hashedId
      { g with tickets := g.tickets.take t } := by
  refine h.change rfl (fun u hu => ?_) (hp.congr h.main_lt rfl rfl rfl)
    (h.ranked.take hlive) ?_ (fun k hk => ?_) (h.locks.free rfl rfl rfl rfl ht hfree) h.created
    h.owner h.listed h.list
  · exact { Keeps.same u g s with
      live := by
        show u ∈ (g.tickets.take t).live ↔ _
        rw [Tickets.mem_take]
        exact or_iff_right hu
      ticket := Tickets.ticket_take_of_ne hu }
  · show s.implicitProducerHashCount + 1 = (g.tickets.take t).live.length
    rw [h.count]
    rfl
  · refine (h.hash k hk).mono (fun u hu => ⟨fun hul => ?_, ?_, rfl⟩) fun _ _ => rfl
    · exact Tickets.mem_take.mpr (.inr hul)
    · exact Tickets.ticket_take_of_ne fun heq => hu (heq ▸ hown)

/-- Thread `t` counts itself out. -/
theorem giveBack {p : GetOrAdd} (h : s.Ok hashedId g) (hown : g.own t = none)
    (hlive : t ∈ g.tickets.live)
    (hp : PlaceOk hashedId { g with tickets := g.tickets.giveBack t } s t p)
    (hlocks : Locks
      ({ s with implicitProducerHashCount := s.implicitProducerHashCount - 1 }.goto t p)) :
    ({ s with implicitProducerHashCount := s.implicitProducerHashCount - 1 }.goto t p).Ok hashedId
      { g with tickets := g.tickets.giveBack t } := by
  refine h.change rfl (fun u hu => ?_) (hp.congr h.main_lt rfl rfl rfl)
    (h.ranked.giveBack t) ?_ (fun k hk => ?_) hlocks h.created h.owner h.listed h.list
  · exact { Keeps.same u g s with
      live := by
        show u ∈ (g.tickets.giveBack t).live ↔ _
        rw [h.ranked.mem_giveBack]
        exact and_iff_right hu }
  · show s.implicitProducerHashCount - 1 = (g.tickets.giveBack t).live.length
    have hlen := Tickets.length_giveBack hlive
    have hcount := h.count
    omega
  · refine (h.hash k hk).mono (fun u hu => ⟨fun hul => ?_, rfl, rfl⟩) fun _ _ => rfl
    exact h.ranked.mem_giveBack.mpr ⟨fun heq => hu (heq ▸ hown), hul⟩

/-- A new table is made, which is private yet. -/
theorem allocate {main newCount : Nat} (h : s.Ok hashedId g)
    (ht : s.place t = .mallocHash main newCount) :
    ({ s with
      hashes := Function.update s.hashes s.allocated
        ⟨growCapacity newCount newCount ((s.hashes main).capacity <<< 1), fun _ => none,
          fun _ => none, some main⟩
      allocated := s.allocated + 1 }.goto t (.publish s.allocated newCount)).Ok hashedId g := by
  have hlocked : (s.place t).locked = true := by rw [ht]; rfl
  obtain ⟨-, hcounted⟩ := h.atPlace ht
  have hmain := h.locks.allocating t main newCount ht
  have hallocated : s.allocated = s.implicitProducerHash + 1 :=
    h.locks.allocated_of_locked hlocked (by simp [ht])
  have hhash := h.hash_of_le (Nat.le_of_eq hmain)
  obtain ⟨m, hm⟩ := hhash.capacity
  have hdouble : (s.hashes main).capacity <<< 1 = 2 ^ (m + 2 + 1) := by
    rw [hm, Nat.shiftLeft_eq, Nat.pow_one, ← Nat.pow_succ]
  have hlt : newCount < 2 ^ (m + 2 + newCount) :=
    Nat.lt_of_lt_of_le Nat.lt_two_pow_self (Nat.pow_le_pow_right (by omega) (by omega))
  obtain ⟨m', hle, hgrow, hfits⟩ := growCapacity_spec newCount newCount (m + 2) hlt
  rw [hdouble, hgrow]
  have hsucc : 2 ^ (m' + 1) = 2 * 2 ^ m' := by
    rw [Nat.pow_succ]
    omega
  have hsame : ∀ k < s.allocated, ∀ x : ImplicitProducerHash ι,
      Function.update s.hashes s.allocated x k = s.hashes k := fun k hk x =>
    Function.update_of_ne (Nat.ne_of_lt hk) ..
  refine h.change rfl (fun u hu => ?_) ⟨Nat.lt_succ_self _, hcounted, ?_⟩ h.ranked h.count
    (fun k hk => ?_) ?_ h.created h.owner h.listed h.list
  · exact { Keeps.same u g s with
      allocated := Nat.le_succ _
      capacity := fun k hk => by
        show (Function.update s.hashes s.allocated _ k).capacity = _
        rw [hsame k hk]
      fills := fun k hk => by
        show Fills _ (Function.update s.hashes s.allocated _ k).key
        rw [hsame k hk]
        exact .refl
      key := fun k hk i hi => by
        change (Function.update s.hashes s.allocated _ k).key i = some u at hi
        rwa [hsame k hk] at hi }
  · show (Function.update s.hashes s.allocated _ s.allocated).crowded newCount = false
    rw [Function.update_self, Bool.eq_false_iff]
    intro hcrowded
    have hcap := (ImplicitProducerHash.crowded_iff (m := m' - 1) (by
      show 2 ^ (m' + 1) = 2 ^ (m' - 1 + 2)
      rw [show m' - 1 + 2 = m' + 1 by omega])).mp hcrowded
    change 2 ^ (m' + 1) ≤ 2 * newCount at hcap
    omega
  · rcases Nat.lt_succ_iff_lt_or_eq.mp hk with hk | rfl
    · exact (h.hash k hk).mono (fun _ _ => ⟨id, rfl, rfl⟩) fun j hj =>
        hsame j (Nat.lt_of_le_of_lt hj hk) _
    · -- the table itself
      constructor
      · show ∃ n, (Function.update s.hashes s.allocated _ s.allocated).capacity = _
        rw [Function.update_self]
        refine ⟨m' - 1, ?_⟩
        show 2 ^ (m' + 1) = _
        rw [show m' - 1 + 2 = m' + 1 by omega]
      · show (Function.update s.hashes s.allocated _ s.allocated).prev = _
        rw [Function.update_self, hallocated, hmain]
        rfl
      · intro j hj
        show 2 * (Function.update s.hashes s.allocated _ j).capacity ≤
          (Function.update s.hashes s.allocated _ s.allocated).capacity
        rw [Function.update_self, hsame j hj]
        have hpow : 2 ^ (m + 2 + 1) ≤ 2 ^ (m' + 1) :=
          Nat.pow_le_pow_right (by omega) (by omega)
        have hjmain : (s.hashes j).capacity ≤ (s.hashes main).capacity := by
          have hle : j ≤ main := by
            rw [hmain]
            exact Nat.le_of_lt_succ (Nat.lt_of_lt_of_eq hj hallocated)
          rcases Nat.lt_or_eq_of_le hle with hlt | rfl
          · have hlarger := hhash.larger j hlt
            omega
          · exact Nat.le_refl _
        show 2 * (s.hashes j).capacity ≤ 2 ^ (m' + 1)
        rw [hm] at hjmain
        rw [Nat.pow_succ 2 (m + 2)] at hpow
        omega
      · show Placed hashedId (Function.update s.hashes s.allocated _ s.allocated).key _
        rw [Function.update_self]
        exact .empty
      · show ∀ i < _, ∀ t, (Function.update s.hashes s.allocated _ s.allocated).key i = _ → _
        rw [Function.update_self]
        intro i _ t hkey
        cases hkey
  · refine h.locks.change rfl (fun _ => h.locks.held t hlocked)
      (fun u hu hl => (h.locks.alone hlocked hu hl).elim) (fun hp => absurd rfl (hp _ _)) ?_ ?_
    · intro a b heq
      cases heq
      exact ⟨hallocated, by
        show s.allocated + 1 = s.implicitProducerHash + 2
        omega⟩
    · intro a b heq
      cases heq

/-- The new table becomes the current one. -/
theorem publish {newHash newCount : Nat} (h : s.Ok hashedId g)
    (ht : s.place t = .publish newHash newCount) :
    ({ s with implicitProducerHash := newHash }.goto t (.clear newHash newCount)).Ok hashedId
      g := by
  have hlocked : (s.place t).locked = true := by rw [ht]; rfl
  obtain ⟨-, hcounted, hcrowded⟩ := h.atPlace ht
  obtain ⟨hnew, hallocated⟩ := h.locks.publishing t newHash newCount ht
  refine h.change rfl (fun u hu => ?_) ⟨Nat.le_refl _, hcounted, hcrowded⟩ h.ranked h.count
    (fun k hk => (h.hash k hk).mono (fun _ _ => ⟨id, rfl, rfl⟩) fun _ _ => rfl) ?_ h.created
    h.owner h.listed h.list
  · exact { Keeps.same u g s with
      main := by
        rw [hnew]
        exact Nat.le_succ _ }
  · refine h.locks.change rfl (fun _ => h.locks.held t hlocked)
      (fun u hu hl => (h.locks.alone hlocked hu hl).elim) (fun _ _ => ?_) ?_ ?_
    · show s.allocated = newHash + 1
      rw [hnew]
      exact hallocated
    · intro a b heq
      cases heq
    · intro a b heq
      cases heq

/-- A new producer, which is not linked yet. -/
theorem create {main : HashId} (h : s.Ok hashedId g) (ht : s.place t = .create main) :
    ({ s with created := s.created + 1 }.goto t (.loadTail main s.created)).Ok hashedId
      { g with own := Function.update g.own t (some s.created) } := by
  obtain ⟨hroom, hown⟩ := h.atPlace ht
  have hself : Function.update g.own t (some s.created) t = some s.created :=
    Function.update_self ..
  have hother : ∀ u, u ≠ t → Function.update g.own t (some s.created) u = g.own u :=
    fun u hu => Function.update_of_ne hu ..
  have hunlisted : ∀ x ∈ g.listed, x.1 ≠ t := fun x hx heq => by
    have hx' := h.listed x hx
    rw [heq, hown] at hx'
    cases hx'
  refine h.change rfl (fun u hu => ?_) ⟨⟨hroom.main_le, hroom.absent, hroom.live, hroom.ticket⟩,
    hself, hunlisted⟩ h.ranked h.count (fun k hk => ?_)
    (h.locks.free rfl rfl rfl rfl (by rw [ht]; rfl) rfl) (fun u p hp => ?_) (fun u v p hu hv => ?_)
    (fun x hx => ?_) h.list
  · exact { Keeps.same u g s with own := hother u hu }
  · refine (h.hash k hk).mono (fun u hu => ⟨id, rfl, ?_⟩) fun _ _ => rfl
    exact hother u fun heq => hu (heq ▸ hown)
  · change Function.update g.own t (some s.created) u = some p at hp
    show p < s.created + 1
    rcases eq_or_ne u t with rfl | hne
    · rw [hself] at hp
      cases hp
      exact Nat.lt_succ_self _
    · rw [hother u hne] at hp
      exact Nat.lt_succ_of_lt (h.created u p hp)
  · change Function.update g.own t (some s.created) u = some p at hu
    change Function.update g.own t (some s.created) v = some p at hv
    rcases eq_or_ne u t with rfl | hu'
    · rcases eq_or_ne v u with rfl | hv'
      · rfl
      · rw [hself] at hu
        rw [hother v hv'] at hv
        cases hu
        exact absurd (h.created v _ hv) (Nat.lt_irrefl _)
    · rw [hother u hu'] at hu
      rcases eq_or_ne v t with rfl | hv'
      · rw [hself] at hv
        cases hv
        exact absurd (h.created u _ hu) (Nat.lt_irrefl _)
      · rw [hother v hv'] at hv
        exact h.owner u v p hu hv
  · exact (hother x.1 (hunlisted x hx)).trans (h.listed x hx)

/-- The producer of thread `t` is linked. -/
theorem push {main : HashId} {producer : ProducerId} {prevTail : Option ProducerId}
    (h : s.Ok hashedId g) (ht : s.place t = .pushTail main producer prevTail) :
    ({ s with producerListTail := producer :: s.producerListTail }.goto t
        (.insertProbe main producer (hashedId t))).Ok hashedId
      { g with listed := (t, producer) :: g.listed } := by
  obtain ⟨hroom, hown, -⟩ := h.atPlace ht
  obtain ⟨m, hm⟩ := (h.hash_of_le hroom.main_le).capacity
  refine h.change rfl (fun u hu => ?_) ⟨⟨hroom.main_le, hroom.absent, hroom.live, hroom.ticket⟩,
    hown, List.mem_cons_self, .start hm t⟩ h.ranked h.count
    (fun k hk => (h.hash k hk).mono (fun _ _ => ⟨id, rfl, rfl⟩) fun _ _ => rfl)
    (h.locks.free rfl rfl rfl rfl (by rw [ht]; rfl) rfl) h.created h.owner (fun x hx => ?_) ?_
  · exact { Keeps.same u g s with
      listed := fun p => by
        show (u, p) ∈ (t, producer) :: g.listed ↔ _
        rw [List.mem_cons]
        exact or_iff_right fun heq => hu (congrArg Prod.fst heq) }
  · rcases List.mem_cons.mp hx with rfl | hx
    · exact hown
    · exact h.listed x hx
  · show producer :: g.listed.map Prod.snd = _
    rw [h.list]
    rfl

/-- Thread `t` puts itself in `main`, and returns its producer. -/
theorem insert {main : HashId} {p : ProducerId} {index : Nat} (h : s.Ok hashedId g)
    (ht : (s.place t).locked = false) (hroom : Roomy g s main t) (hown : g.own t = some p)
    (hlisted : (t, p) ∈ g.listed) (hat : (s.hashes main).At hashedId t index)
    (hmask : (s.hashes main).mask index = index) (hkey : (s.hashes main).key index = none) :
    ((s.setEntry t main index (some p)).goto t (.idle (some (some p)))).Ok hashedId g := by
  have hhash := h.hash_of_le hroom.main_le
  obtain ⟨m, hm⟩ := hhash.capacity
  have hindex : index < (s.hashes main).capacity :=
    hmask ▸ ImplicitProducerHash.mask_lt hm index
  obtain ⟨d, hd, hpassed⟩ := hat
  rw [hmask] at hd
  have hmain : (s.setEntry t main index (some p)).hashes main = { s.hashes main with
      key := Function.update (s.hashes main).key index (some t)
      value := Function.update (s.hashes main).value index (some p) } :=
    Function.update_self ..
  have hother : ∀ k, k ≠ main → (s.setEntry t main index (some p)).hashes k = s.hashes k :=
    fun k hk => Function.update_of_ne hk ..
  have hcapacity : ∀ k, ((s.setEntry t main index (some p)).hashes k).capacity =
      (s.hashes k).capacity := by
    intro k
    rcases eq_or_ne k main with rfl | hk
    · rw [hmain]
    · rw [hother k hk]
  refine h.change rfl (fun u hu => ?_) ⟨fun _ => by rw [hown]; simp, fun q hq => ?_⟩ h.ranked
    h.count (fun k hk => ?_) (h.locks.free rfl rfl rfl rfl ht rfl) h.created h.owner h.listed h.list
  · exact { Keeps.same u g s with
      capacity := fun k _ => hcapacity k
      fills := fun k _ => by
        show Fills _ ((s.setEntry t main index (some p)).hashes k).key
        rcases eq_or_ne k main with rfl | hk
        · rw [hmain]
          exact .update hkey
        · rw [hother k hk]
          exact .refl
      key := fun k _ i hi => by
        change ((s.setEntry t main index (some p)).hashes k).key i = some u at hi
        rcases eq_or_ne k main with rfl | hk
        · rw [hmain] at hi
          change Function.update (s.hashes k).key index (some t) i = some u at hi
          rcases eq_or_ne i index with rfl | hne
          · rw [Function.update_self] at hi
            exact absurd (Option.some.inj hi).symm hu
          · rwa [Function.update_of_ne hne] at hi
        · rwa [hother k hk] at hi }
  · rw [hown] at hq
    cases hq
    refine ⟨hlisted, main, hroom.main_le, index, ?_, ?_⟩
    · show index < ((s.setEntry t main index (some p)).hashes main).capacity
      rw [hcapacity]
      exact hindex
    · show ((s.setEntry t main index (some p)).hashes main).key index = some t
      rw [hmain]
      exact Function.update_self ..
  · have hk' := h.hash k hk
    suffices hset : HashOk hashedId g (s.setEntry t main index (some p)) k from
      hset.mono (fun _ _ => ⟨id, rfl, rfl⟩) fun _ _ => rfl
    constructor
    · rw [hcapacity]
      exact hk'.capacity
    · rcases eq_or_ne k main with rfl | hne
      · rw [hmain]
        exact hk'.prev
      · rw [hother k hne]
        exact hk'.prev
    · intro j hj
      rw [hcapacity, hcapacity]
      exact hk'.larger j hj
    · rcases eq_or_ne k main with rfl | hne
      · rw [hmain]
        show Placed hashedId (Function.update (s.hashes k).key index (some t)) (s.hashes k).capacity
        rw [hd] at hkey ⊢
        exact hk'.placed.update hpassed
          (hpassed.lt (slot_lt (Nat.lt_of_le_of_lt (Nat.zero_le _) hindex)) hkey) hkey
      · rw [hother k hne]
        exact hk'.placed
    · rcases eq_or_ne k main with rfl | hne
      · rw [hmain]
        intro i hi u hu
        change Function.update (s.hashes k).key index (some t) i = some u at hu
        show u ∈ _ ∧ _ ∧ _ ∧ Function.update (s.hashes k).value index (some p) i = _
        rcases eq_or_ne i index with rfl | hni
        · rw [Function.update_self] at hu
          cases hu
          rw [Function.update_self, hown]
          exact ⟨hroom.live, hroom.ticket, by simp, rfl⟩
        · rw [Function.update_of_ne hni] at hu
          rw [Function.update_of_ne hni]
          exact hk'.entry i hi u hu
      · rw [hother k hne]
        exact hk'.entry

end Ok

end ProducerHash

end Rtlog.Queue
