/-
# `Rtlog.Queue.Producers` — the runs of `get_or_add_implicit_producer`

A step of a thread keeps `ProducerHash.Ok`, and what it shows is a step of a registration
(`Ok.step`), so that a run is one too (`producers_registered`).
-/
import Rtlog.Queue.Registered

namespace Rtlog.Queue

open Probing

variable {ι : Type} {hashedId : ι → Nat} {g g' : Ghost ι} {s s' : ProducerHash ι} {t u : ι}
  {main hash : HashId} {index newCount m : Nat}

/-! ## Searching -/

theorem Roomy.ne {k : ι} (h : Roomy g s main t) (hm : (s.hashes main).capacity = 2 ^ m)
    (hk : (s.hashes main).key ((s.hashes main).mask index) = some k) : k ≠ t := by
  rintro rfl
  exact h.absent ⟨_, ImplicitProducerHash.mask_lt hm index, hk⟩

/-- Another thread is where thread `t` would put itself, which goes on. -/
theorem Roomy.after {k : ι} (h : Roomy g s main t) (hm : (s.hashes main).capacity = 2 ^ m)
    (hat : (s.hashes main).At hashedId t index) (hmask : (s.hashes main).mask index = index)
    (hk : (s.hashes main).key index = some k) : (s.hashes main).At hashedId t (index + 1) := by
  rw [← hmask] at hk
  have hat' := hat.next hm hk (h.ne hm hk)
  rwa [hmask] at hat'

/-- A search that comes to an empty slot has missed nothing. -/
theorem HashOk.absent (h : HashOk hashedId g s hash) (hat : (s.hashes hash).At hashedId t index)
    (hk : (s.hashes hash).key ((s.hashes hash).mask index) = none) :
    ¬ (s.hashes hash).Holds t := by
  obtain ⟨d, hd, hpassed⟩ := hat
  rintro ⟨i, hi, hkey⟩
  rw [hd] at hk
  exact h.placed.absent hpassed hk i hi hkey

theorem Registered.imp {main' : HashId} (h : Registered g s main t) (hle : main ≤ main') :
    Registered g s main' t := by
  intro p hp
  obtain ⟨hlisted, k, hk, hholds⟩ := h p hp
  exact ⟨hlisted, k, Nat.le_trans hk hle, hholds⟩

/-- Who is in no table of the chain has no producer. -/
theorem Registered.own_eq_none (h : Registered g s main t)
    (habsent : ∀ k ≤ main, ¬ (s.hashes k).Holds t) : g.own t = none := by
  cases hown : g.own t with
  | none => rfl
  | some p =>
      obtain ⟨-, k, hk, hholds⟩ := h p hown
      exact absurd hholds (habsent k hk)

/-! ## Room -/

theorem PlaceOk.room (hm : (s.hashes main).capacity = 2 ^ (m + 2))
    (hle : main ≤ s.implicitProducerHash) (habsent : ¬ (s.hashes main).Holds t)
    (hc : Counted g t newCount) : PlaceOk hashedId g s t (s.room main newCount) := by
  unfold ProducerHash.room
  split
  · next hroom =>
      refine ⟨⟨hle, habsent, hc.live, ?_⟩, hc.own⟩
      rw [hc.ticket]
      exact (ImplicitProducerHash.hasRoom_iff hm).mp hroom
  · exact hc

theorem PlaceOk.enter (hm : (s.hashes main).capacity = 2 ^ (m + 2))
    (hle : main ≤ s.implicitProducerHash) (habsent : ¬ (s.hashes main).Holds t)
    (hc : Counted g t newCount) : PlaceOk hashedId g s t (s.enter main newCount) := by
  unfold ProducerHash.enter
  split
  · exact ⟨hle, hc⟩
  · exact .room hm hle habsent hc

/-- Nothing is shown by a thread that comes there. -/
def GetOrAdd.quiet : GetOrAdd → Bool
  | .idle _ | .insertProbe .. => false
  | _ => true

theorem ProducerHash.room_quiet (s : ProducerHash ι) (main : HashId) (newCount : Nat) :
    (s.room main newCount).locked = false ∧ (s.room main newCount).quiet = true := by
  unfold room
  split <;> exact ⟨rfl, rfl⟩

theorem ProducerHash.enter_quiet (s : ProducerHash ι) (main : HashId) (newCount : Nat) :
    (s.enter main newCount).locked = false ∧ (s.enter main newCount).quiet = true := by
  unfold enter
  split
  · exact ⟨rfl, rfl⟩
  · exact s.room_quiet main newCount

/-- One slot of a table stays empty. -/
theorem HashOk.exists_empty (h : HashOk hashedId g s hash) (hr : g.tickets.Ranked) :
    ∃ i < (s.hashes hash).capacity, (s.hashes hash).key i = none := by
  obtain ⟨m, hm⟩ := h.capacity
  have hpos : 0 < (s.hashes hash).capacity := hm ▸ Nat.two_pow_pos _
  have hfew := Nat.lt_of_le_of_lt (hr.rank ((s.hashes hash).capacity - 1))
    (Nat.sub_one_lt_of_lt hpos)
  refine h.placed.exists_empty hfew fun i hi k hk => ?_
  obtain ⟨hlive, hticket, -⟩ := h.entry i hi k hk
  exact List.mem_filter.mpr ⟨hlive, decide_eq_true (by omega)⟩

/-! ## Registrations -/

namespace Registration

variable {l l' : List (ι × ProducerId)} {e : Event ι} {es : List (Event ι)}

/-- A thread is listed once, and a producer too. -/
structure Proper (l : List (ι × ProducerId)) : Prop where
  thread : ∀ x ∈ l, ∀ y ∈ l, x.1 = y.1 → x = y
  producer : ∀ x ∈ l, ∀ y ∈ l, x.2 = y.2 → x = y

theorem Proper.nil : Proper ([] : List (ι × ProducerId)) where
  thread x hx := by cases hx
  producer x hx := by cases hx

theorem Next.subset (h : Next l e l') : l ⊆ l' := by
  cases h with
  | listed => exact List.subset_cons_self ..
  | found | failed => exact List.Subset.refl _

theorem Next.proper (h : Next l e l') (hl : Proper l) : Proper l' := by
  cases h with
  | found | failed => exact hl
  | listed ht hp =>
      constructor
      · intro x hx y hy heq
        rcases List.mem_cons.mp hx with rfl | hx
        · rcases List.mem_cons.mp hy with rfl | hy
          · rfl
          · exact absurd heq.symm (ht y hy)
        · rcases List.mem_cons.mp hy with rfl | hy
          · exact absurd heq (ht x hx)
          · exact hl.thread x hx y hy heq
      · intro x hx y hy heq
        rcases List.mem_cons.mp hx with rfl | hx
        · rcases List.mem_cons.mp hy with rfl | hy
          · rfl
          · exact absurd heq.symm (hp y hy)
        · rcases List.mem_cons.mp hy with rfl | hy
          · exact absurd heq (hp x hx)
          · exact hl.producer x hx y hy heq

theorem path_subset (h : EventPath Next l es l') : l ⊆ l' := by
  induction h with
  | nil => exact List.Subset.refl _
  | cons hn _ ih => exact List.Subset.trans hn.subset ih

theorem path_proper (h : EventPath Next l es l') (hl : Proper l) : Proper l' := by
  induction h with
  | nil => exact hl
  | cons hn _ ih => exact ih (hn.proper hl)

/-- Whoever has been given a producer is listed with it. -/
theorem mem_of_answered {p : ProducerId} (h : EventPath Next l es l')
    (hmem : .answered t (some p) ∈ es) : (t, p) ∈ l' := by
  induction h with
  | nil => cases hmem
  | cons hn hrest ih =>
      rcases List.mem_cons.mp hmem with rfl | hmem
      · cases hn with
        | found hl => exact path_subset hrest hl
      · exact ih hmem

end Registration

namespace ProducerHash

variable [DecidableEq ι] {x : ProducerHash ι} {p : GetOrAdd}

theorem goto_place : (x.goto t p).place t = p := Function.update_self ..

theorem event_quiet (hq : p.quiet = true) : event s (.next t) (x.goto t p) = none := by
  unfold event
  simp only [goto_place]
  cases p with
  | idle | insertProbe => cases hq
  | _ => cases s.place t <;> rfl

/-- What a step of thread `t` has to be. -/
def Answered (hashedId : ι → Nat) (g : Ghost ι) (s : ProducerHash ι) (a : HashAction ι)
    (s' : ProducerHash ι) : Prop :=
  ∃ g', EventPath Registration.Next g.listed (event s a s').toList g'.listed ∧ s'.Ok hashedId g'

omit [DecidableEq ι] in
/-- A step that shows nothing. -/
theorem Answered.quiet {a : HashAction ι} (h : s'.Ok hashedId g') (hlisted : g'.listed = g.listed)
    (he : event s a s' = none) : Answered hashedId g s a s' :=
  ⟨g', by rw [he, hlisted]; exact .nil _, h⟩

omit [DecidableEq ι] in
theorem Answered.shown {a : HashAction ι} {e : Registration.Event ι} (h : s'.Ok hashedId g')
    (he : event s a s' = some e) (hnext : Registration.Next g.listed e g'.listed) :
    Answered hashedId g s a s' :=
  ⟨g', by rw [he]; exact .cons hnext (.nil _), h⟩

/-- A step that shows nothing, and leaves what is shared. -/
theorem Ok.silent (h : s.Ok hashedId g) (ht : (s.place t).locked = false)
    (hp : PlaceOk hashedId g s t p) (hfree : p.locked = false) (hq : p.quiet = true) :
    Answered hashedId g s (.next t) (s.goto t p) :=
  .quiet (h.free ht hp hfree) rfl (event_quiet hq)

omit [DecidableEq ι] in
theorem Ok.unlisted (h : s.Ok hashedId g) (hown : g.own t = none) : ∀ y ∈ g.listed, y.1 ≠ t := by
  intro y hy heq
  have hy' := h.listed y hy
  rw [heq, hown] at hy'
  cases hy'

omit [DecidableEq ι] in
theorem Ok.capacity (h : s.Ok hashedId g) (hle : main ≤ s.implicitProducerHash) :
    ∃ m, (s.hashes main).capacity = 2 ^ (m + 2) := (h.hash_of_le hle).capacity

/-! ## The steps of a thread -/

/-- Thread `t` has found a key where it looked for itself. -/
theorem Ok.probed {i : Nat} {k : ι} (h : s.Ok hashedId g)
    (hp : s.place t = .probe main hash index) (hi : (s.hashes hash).mask index = i)
    (hkey : (s.hashes hash).key i = some k) :
    Answered hashedId g s (.next t) (s.goto t (s.probed hashedId t main hash i k)) := by
  obtain ⟨hcalm, hreg, hmain, hle, habsent, hat⟩ := h.atPlace hp
  have hlocked : (s.place t).locked = false := by rw [hp]; rfl
  have hhash := h.hash_of_le (Nat.le_trans hle hmain)
  obtain ⟨m, hm⟩ := hhash.capacity
  have hlt : i < (s.hashes hash).capacity := hi ▸ ImplicitProducerHash.mask_lt hm index
  unfold ProducerHash.probed
  split
  · next heq =>
      subst heq
      obtain ⟨hlive, hticket, hown, hvalue⟩ := hhash.entry i hlt k hkey
      rw [hvalue]
      split
      · next heq =>
          subst heq
          obtain ⟨q, hq⟩ := Option.ne_none_iff_exists'.mp hown
          refine .shown (h.free hlocked ⟨hcalm, hreg.imp hmain⟩ rfl)
            (e := .answered k (some q)) ?_ (.found (hreg q hq).1)
          simp [event, hp, goto_place, hq]
      · next hne =>
          have hlt' : hash < main := Nat.lt_of_le_of_ne hle hne
          obtain ⟨m', hm'⟩ := h.capacity hmain
          have hlarger := (h.hash_of_le hmain).larger hash hlt'
          refine h.silent hlocked ⟨⟨hmain, habsent main (Nat.le_refl _) hlt', hlive, ?_⟩, hreg,
            rfl, hown, .start hm' k⟩ rfl rfl
          omega
  · next hne =>
      subst hi
      exact h.silent hlocked ⟨hcalm, hreg, hmain, hle, habsent, hat.next hm hkey hne⟩ rfl rfl

/-- Thread `t` has not found itself in `hash`. -/
theorem Ok.missed (h : s.Ok hashedId g) (hp : s.place t = .probe main hash index)
    (hkey : (s.hashes hash).key ((s.hashes hash).mask index) = none) :
    Answered hashedId g s (.next t) (s.goto t (s.missed hashedId t main hash)) := by
  obtain ⟨hcalm, hreg, hmain, hle, habsent, hat⟩ := h.atPlace hp
  have hlocked : (s.place t).locked = false := by rw [hp]; rfl
  have hhash := h.hash_of_le (Nat.le_trans hle hmain)
  have hhere := hhash.absent hat hkey
  have hfrom : ∀ k ≤ main, hash ≤ k → ¬ (s.hashes k).Holds t := by
    intro k hk hge
    rcases Nat.lt_or_eq_of_le hge with hlt | rfl
    · exact habsent k hk hlt
    · exact hhere
  unfold ProducerHash.missed
  rw [hhash.prev]
  cases hash with
  | zero =>
      have hown := hreg.own_eq_none fun k hk => hfrom k hk (Nat.zero_le k)
      exact h.silent hlocked ⟨hmain, hown, fun hlive => hcalm hlive hown⟩ rfl rfl
  | succ hash =>
      obtain ⟨m, hm⟩ := h.capacity (Nat.le_trans (Nat.le_of_succ_le hle) hmain)
      exact h.silent hlocked ⟨hcalm, hreg, hmain, Nat.le_of_succ_le hle,
        fun k hk hlt => hfrom k hk hlt, .start hm t⟩ rfl rfl

/-- Thread `t` counts itself in. -/
theorem Ok.fetchAdd (h : s.Ok hashedId g) (hp : s.place t = .fetchAdd main) :
    Answered hashedId g s (.next t)
      ({ s with implicitProducerHashCount := s.implicitProducerHashCount + 1 }.goto t
        (s.enter main (s.implicitProducerHashCount + 1))) := by
  obtain ⟨hmain, hown, hlive⟩ := h.atPlace hp
  obtain ⟨m, hm⟩ := h.capacity hmain
  obtain ⟨hfree, hquiet⟩ := s.enter_quiet main (s.implicitProducerHashCount + 1)
  have hcounted : Counted { g with tickets := g.tickets.take t } t
      (s.implicitProducerHashCount + 1) :=
    ⟨hown, Tickets.mem_take.mpr (.inl rfl), by rw [h.count]; exact Tickets.ticket_take⟩
  exact .quiet (h.take (by rw [hp]; rfl) hown hlive
    (.enter hm hmain ((h.hash_of_le hmain).not_holds hown) hcounted) hfree) rfl
    (event_quiet hquiet)

theorem Ok.testAndSet (h : s.Ok hashedId g) (hp : s.place t = .testAndSet main newCount)
    (hs : s.nextStep hashedId t = some s') : Answered hashedId g s (.next t) s' := by
  obtain ⟨hmain, hcounted⟩ := h.atPlace hp
  have hlocked : (s.place t).locked = false := by rw [hp]; rfl
  simp only [nextStep, hp] at hs
  split at hs
  · obtain ⟨m, hm⟩ := h.capacity hmain
    obtain ⟨hfree, hquiet⟩ := s.room_quiet main newCount
    cases hs
    exact h.silent hlocked (.room hm hmain ((h.hash_of_le hmain).not_holds hcounted.own) hcounted)
      hfree hquiet
  · next hflag =>
      -- nobody else has the lock, since it was free
      have hnobody : ∀ u, (s.place u).locked = false := fun u =>
        Bool.eq_false_iff.mpr fun hu => hflag (h.locks.held u hu)
      cases hs
      refine .quiet (h.move true hcounted (h.locks.change rfl (fun _ => rfl) (fun u _ hu => ?_)
        (fun _ hothers => ?_) (fun a b heq => ?_) fun a b heq => ?_)) rfl (event_quiet rfl)
      · rw [hnobody u] at hu
        cases hu
      · exact h.locks.allocated_eq (by simp [hp]) hothers
      · cases heq
      · cases heq

theorem Ok.reloadMain (h : s.Ok hashedId g) (hp : s.place t = .reloadMain newCount)
    (hs : s.nextStep hashedId t = some s') : Answered hashedId g s (.next t) s' := by
  have hcounted := h.atPlace hp
  have hlocked : (s.place t).locked = true := by rw [hp]; rfl
  simp only [nextStep, hp] at hs
  cases hs
  split
  · refine .quiet (h.move s.implicitProducerHashResizeInProgress ⟨Nat.le_refl _, hcounted⟩
      (h.locks.keep rfl rfl rfl rfl hlocked (by simp [hp]) (by simp) fun a b heq => ?_)) rfl
      (event_quiet rfl)
    cases heq
    rfl
  · next hcrowded =>
      refine .quiet (h.move s.implicitProducerHashResizeInProgress
        ⟨Nat.le_refl _, hcounted, Bool.eq_false_iff.mpr hcrowded⟩
        (h.locks.keep rfl rfl rfl rfl hlocked (by simp [hp]) (by simp) (by simp))) rfl
        (event_quiet rfl)

/-- The table could not be made. -/
theorem Ok.fetchSub (h : s.Ok hashedId g) (hp : s.place t = .fetchSub) :
    Answered hashedId g s (.next t)
      ({ s with implicitProducerHashCount := s.implicitProducerHashCount - 1 }.goto t
        .clearFailed) := by
  obtain ⟨hown, hlive⟩ := h.atPlace hp
  exact .quiet (h.giveBack hown hlive ⟨hown, fun hin => (h.ranked.mem_giveBack.mp hin).1 rfl⟩
    (h.locks.keep rfl rfl rfl rfl (by rw [hp]; rfl) (by simp [hp]) (by simp) (by simp))) rfl
    (event_quiet rfl)

theorem Ok.clearFailed (h : s.Ok hashedId g) (hp : s.place t = .clearFailed) :
    Answered hashedId g s (.next t)
      ({ s with implicitProducerHashResizeInProgress := false }.goto t (.idle (some none))) := by
  obtain ⟨hown, hlive⟩ := h.atPlace hp
  refine .shown (h.move false ⟨fun hin => absurd hin hlive, fun q hq => ?_⟩
    (h.locks.release rfl rfl rfl (by rw [hp]; rfl) (by simp [hp]) rfl))
    (e := .answered t none) ?_ (.failed (h.unlisted hown))
  · rw [hown] at hq
    cases hq
  · simp [event, hp, goto_place]

theorem Ok.clear (h : s.Ok hashedId g) (hp : s.place t = .clear main newCount) :
    Answered hashedId g s (.next t)
      ({ s with implicitProducerHashResizeInProgress := false }.goto t
        (s.room main newCount)) := by
  obtain ⟨hmain, hcounted, -⟩ := h.atPlace hp
  obtain ⟨m, hm⟩ := h.capacity hmain
  obtain ⟨hfree, hquiet⟩ := s.room_quiet main newCount
  exact .quiet (h.move false
    (.room hm hmain ((h.hash_of_le hmain).not_holds hcounted.own) hcounted)
    (h.locks.release rfl rfl rfl (by rw [hp]; rfl) (by simp [hp]) hfree)) rfl (event_quiet hquiet)

/-- No producer could be made. -/
theorem Ok.undo (h : s.Ok hashedId g) (hp : s.place t = .undo) :
    Answered hashedId g s (.next t)
      ({ s with implicitProducerHashCount := s.implicitProducerHashCount - 1 }.goto t
        (.idle (some none))) := by
  obtain ⟨hown, hlive⟩ := h.atPlace hp
  refine .shown (h.giveBack hown hlive
    ⟨fun hin => absurd rfl (h.ranked.mem_giveBack.mp hin).1, fun q hq => ?_⟩
    (h.locks.free rfl rfl rfl rfl (by rw [hp]; rfl) rfl))
    (e := .answered t none) ?_ (.failed (h.unlisted hown))
  · change g.own t = some q at hq
    rw [hown] at hq
    cases hq
  · simp [event, hp, goto_place]

/-- Thread `t` puts itself in the table. -/
theorem Ok.inserted {q : ProducerId} (h : s.Ok hashedId g) (ht : (s.place t).locked = false)
    (hroom : Roomy g s main t) (hown : g.own t = some q) (hlisted : (t, q) ∈ g.listed)
    (hat : (s.hashes main).At hashedId t index) (hmask : (s.hashes main).mask index = index)
    (hkey : (s.hashes main).key index = none) :
    Answered hashedId g s (.next t)
      ((s.setEntry t main index (some q)).goto t (.idle (some (some q)))) := by
  refine .shown (h.insert ht hroom hown hlisted hat hmask hkey) (e := .answered t (some q)) ?_
    (.found hlisted)
  unfold event
  simp only [goto_place]

theorem Ok.pushed {q : ProducerId} {prevTail : Option ProducerId} (h : s.Ok hashedId g)
    (hp : s.place t = .pushTail main q prevTail) :
    Answered hashedId g s (.next t) ({ s with producerListTail := q :: s.producerListTail }.goto t
      (.insertProbe main q (hashedId t))) := by
  obtain ⟨-, hown, hunlisted⟩ := h.atPlace hp
  refine .shown (h.push hp) (e := .listed t q) ?_ (.listed hunlisted fun y hy heq => ?_)
  · simp [event, hp, goto_place]
  · have hy' := h.listed y hy
    rw [heq] at hy'
    exact hunlisted y hy (h.owner _ _ _ hy' hown)

theorem Ok.lazyProbe {value : Option ProducerId} (h : s.Ok hashedId g)
    (hp : s.place t = .lazyProbe main value index) (hs : s.nextStep hashedId t = some s') :
    Answered hashedId g s (.next t) s' := by
  obtain ⟨hroom, hreg, hvalue, hown, hat⟩ := h.atPlace hp
  obtain ⟨m, hm⟩ := h.capacity hroom.main_le
  have hlocked : (s.place t).locked = false := by rw [hp]; rfl
  simp only [nextStep, hp] at hs
  split at hs
  · next k hkey =>
      cases hs
      exact h.silent hlocked ⟨hroom, hreg, hvalue, hown, hat.next hm hkey (hroom.ne hm hkey)⟩ rfl
        rfl
  · cases hs
    exact h.silent hlocked ⟨hroom, hreg, hvalue, hown, hat.masked hm,
      ImplicitProducerHash.mask_mask hm index⟩ rfl rfl

theorem Ok.lazySwap {value : Option ProducerId} (h : s.Ok hashedId g)
    (hp : s.place t = .lazySwap main value index) (hs : s.nextStep hashedId t = some s') :
    Answered hashedId g s (.next t) s' := by
  obtain ⟨hroom, hreg, rfl, hown, hat, hmask⟩ := h.atPlace hp
  obtain ⟨m, hm⟩ := h.capacity hroom.main_le
  have hlocked : (s.place t).locked = false := by rw [hp]; rfl
  simp only [nextStep, hp] at hs
  split at hs
  · next k hkey =>
      cases hs
      exact h.silent hlocked ⟨hroom, hreg, rfl, hown, hroom.after hm hat hmask hkey⟩ rfl rfl
  · next hkey =>
      obtain ⟨q, hq⟩ := Option.ne_none_iff_exists'.mp hown
      rw [hq] at hs
      cases hs
      exact h.inserted hlocked hroom hq (hreg q hq).1 hat hmask hkey

theorem Ok.insertProbe {q : ProducerId} (h : s.Ok hashedId g)
    (hp : s.place t = .insertProbe main q index) (hs : s.nextStep hashedId t = some s') :
    Answered hashedId g s (.next t) s' := by
  obtain ⟨hroom, hown, hlisted, hat⟩ := h.atPlace hp
  obtain ⟨m, hm⟩ := h.capacity hroom.main_le
  have hlocked : (s.place t).locked = false := by rw [hp]; rfl
  simp only [nextStep, hp] at hs
  split at hs
  · next k hkey =>
      cases hs
      refine .quiet (h.free hlocked
        ⟨hroom, hown, hlisted, hat.next hm hkey (hroom.ne hm hkey)⟩ rfl) rfl ?_
      simp [event, hp, goto_place]
  · cases hs
    exact h.silent hlocked ⟨hroom, hown, hlisted, hat.masked hm,
      ImplicitProducerHash.mask_mask hm index⟩ rfl rfl

theorem Ok.insertSwap {q : ProducerId} (h : s.Ok hashedId g)
    (hp : s.place t = .insertSwap main q index) (hs : s.nextStep hashedId t = some s') :
    Answered hashedId g s (.next t) s' := by
  obtain ⟨hroom, hown, hlisted, hat, hmask⟩ := h.atPlace hp
  obtain ⟨m, hm⟩ := h.capacity hroom.main_le
  have hlocked : (s.place t).locked = false := by rw [hp]; rfl
  simp only [nextStep, hp] at hs
  split at hs
  · next k hkey =>
      cases hs
      refine .quiet (h.free hlocked
        ⟨hroom, hown, hlisted, hroom.after hm hat hmask hkey⟩ rfl) rfl ?_
      simp [event, hp, goto_place]
  · next hkey =>
      cases hs
      exact h.inserted hlocked hroom hown hlisted hat hmask hkey

/-- A step of thread `t`, place by place. -/
theorem Ok.next (h : s.Ok hashedId g) (hs : s.nextStep hashedId t = some s') :
    Answered hashedId g s (.next t) s' := by
  cases hp : s.place t with
  | idle | mallocHash | create =>
      simp only [nextStep, hp] at hs
      cases hs
  | loadMain =>
      have hplace := h.atPlace hp
      obtain ⟨m, hm⟩ := h.capacity (Nat.le_refl s.implicitProducerHash)
      simp only [nextStep, hp] at hs
      cases hs
      exact h.silent (by rw [hp]; rfl) ⟨hplace.1, hplace.2, Nat.le_refl _, Nat.le_refl _,
        fun k hk hlt => absurd hlt (Nat.not_lt.mpr hk), .start hm t⟩ rfl rfl
  | probe main hash index =>
      simp only [nextStep, hp] at hs
      split at hs
      · next k hkey =>
          cases hs
          exact h.probed hp rfl hkey
      · next hkey =>
          cases hs
          exact h.missed hp hkey
  | lazyProbe main value index => exact h.lazyProbe hp hs
  | lazySwap main value index => exact h.lazySwap hp hs
  | fetchAdd main =>
      simp only [nextStep, hp] at hs
      cases hs
      exact h.fetchAdd hp
  | testAndSet main newCount => exact h.testAndSet hp hs
  | reloadMain newCount => exact h.reloadMain hp hs
  | fetchSub =>
      simp only [nextStep, hp] at hs
      cases hs
      exact h.fetchSub hp
  | clearFailed =>
      simp only [nextStep, hp] at hs
      cases hs
      exact h.clearFailed hp
  | publish newHash newCount =>
      simp only [nextStep, hp] at hs
      cases hs
      exact .quiet (h.publish hp) rfl (event_quiet rfl)
  | clear main newCount =>
      simp only [nextStep, hp] at hs
      cases hs
      exact h.clear hp
  | loadAgain newCount =>
      have hplace := h.atPlace hp
      obtain ⟨m, hm⟩ := h.capacity (Nat.le_refl s.implicitProducerHash)
      obtain ⟨hfree, hquiet⟩ := s.enter_quiet s.implicitProducerHash newCount
      simp only [nextStep, hp] at hs
      cases hs
      exact h.silent (by rw [hp]; rfl) (.enter hm (Nat.le_refl _)
        ((h.hash_of_le (Nat.le_refl _)).not_holds hplace.own) hplace) hfree hquiet
  | undo =>
      simp only [nextStep, hp] at hs
      cases hs
      exact h.undo hp
  | loadTail main q =>
      have hplace := h.atPlace hp
      simp only [nextStep, hp] at hs
      cases hs
      exact h.silent (by rw [hp]; rfl) hplace rfl rfl
  | pushTail main q prevTail =>
      have hplace := h.atPlace hp
      simp only [nextStep, hp] at hs
      split at hs
      · cases hs
        exact h.pushed hp
      · cases hs
        exact h.silent (by rw [hp]; rfl) hplace rfl rfl
  | insertProbe main q index => exact h.insertProbe hp hs
  | insertSwap main q index => exact h.insertSwap hp hs

/-- An allocation of thread `t`. -/
theorem Ok.malloc {ok : Bool} (h : s.Ok hashedId g) (hs : s.mallocStep t ok = some s') :
    Answered hashedId g s (.malloc t ok) s' := by
  cases hp : s.place t with
  | mallocHash main newCount =>
      have hplace := h.atPlace hp
      cases ok with
      | false =>
          simp only [mallocStep, hp] at hs
          cases hs
          exact .quiet (h.move s.implicitProducerHashResizeInProgress
            ⟨hplace.2.own, hplace.2.live⟩ (h.locks.keep rfl rfl rfl rfl (by rw [hp]; rfl)
              (by simp [hp]) (by simp) (by simp))) rfl rfl
      | true =>
          simp only [mallocStep, hp] at hs
          cases hs
          exact .quiet (h.allocate hp) rfl rfl
  | create main =>
      have hplace := h.atPlace hp
      cases ok with
      | false =>
          simp only [mallocStep, hp] at hs
          cases hs
          exact .quiet (h.free (by rw [hp]; rfl) ⟨hplace.2, hplace.1.live⟩ rfl) rfl rfl
      | true =>
          simp only [mallocStep, hp] at hs
          cases hs
          exact .quiet (h.create hp) rfl rfl
  | _ =>
      simp only [mallocStep, hp] at hs
      cases hs

theorem Ok.step {a : HashAction ι} (h : s.Ok hashedId g) (hs : s.step hashedId a = some s') :
    Answered hashedId g s a s' := by
  cases a with
  | next t => exact h.next hs
  | malloc t ok => exact h.malloc hs
  | call t =>
      simp only [ProducerHash.step] at hs
      split at hs
      · next last hp =>
          have hplace := h.atPlace hp
          cases hs
          exact .quiet (h.free (by rw [hp]; rfl) hplace rfl) rfl rfl
      · cases hs
  | weak t =>
      simp only [ProducerHash.step] at hs
      split at hs
      · next main q prevTail hp =>
          have hplace := h.atPlace hp
          cases hs
          exact .quiet (h.free (by rw [hp]; rfl) hplace rfl) rfl rfl
      · cases hs

/-! ## Runs -/

omit [DecidableEq ι] in
theorem Ok.initial : (initial : ProducerHash ι).Ok hashedId .initial where
  ranked := .empty
  count := rfl
  hash k _ := {
    capacity := ⟨3, rfl⟩
    prev := by
      rw [Nat.lt_one_iff.mp ‹k < 1›]
      rfl
    larger := fun j hj => absurd hj (by rw [Nat.lt_one_iff.mp ‹k < 1›]; exact Nat.not_lt_zero j)
    placed := .empty
    entry := fun i _ t hkey => by cases hkey }
  place t := ⟨fun hin => absurd hin List.not_mem_nil, fun p hp => by cases hp⟩
  locks := {
    held := fun t ht => by cases ht
    exclusive := fun t u ht => by cases ht
    top := fun _ => rfl
    publishing := fun t a b hp => by cases hp
    allocating := fun t a b hp => by cases hp }
  created t p hp := by cases hp
  owner t u p hp := by cases hp
  listed x hx := by cases hx
  list := rfl

theorem Ok.run {as : List (HashAction ι)}
    (hrun : (machine hashedId).run ProducerHash.initial as = some s) :
    ∃ g : Ghost ι, EventPath Registration.Next []
      ((machine hashedId).trace event ProducerHash.initial as) g.listed ∧ s.Ok hashedId g := by
  have hall : (machine hashedId).Along (fun _ _ _ => True) (ProducerHash.initial : ProducerHash ι)
      as := Machine.along_true
  obtain ⟨l, hpath, g, rfl, hok⟩ := hall.refines
    (R := fun s l => ∃ g : Ghost ι, g.listed = l ∧ s.Ok hashedId g) (fun s a s' l hR hs _ => by
      obtain ⟨g, rfl, hg⟩ := hR
      obtain ⟨g', hpath, hg'⟩ := hg.step hs
      exact ⟨g'.listed, hpath, g', rfl, hg'⟩) ⟨_, rfl, Ok.initial⟩ hrun
  exact ⟨g, hpath, hok⟩

end ProducerHash

open ProducerHash

variable [DecidableEq ι] {as : List (HashAction ι)}

/-- In every run with any threads, whatever their ids hash to and whichever allocations
fail, the calls are those of a registration of thread ids, and the list of producers is that
of the ids that are registered. -/
theorem producers_registered (hrun : (machine hashedId).run initial as = some s) :
    ∃ l : List (ι × ProducerId), EventPath Registration.Next []
      ((machine hashedId).trace event initial as) l ∧ l.map Prod.snd = s.producerListTail := by
  obtain ⟨g, hpath, hok⟩ := Ok.run hrun
  exact ⟨g.listed, hpath, hok.list⟩

/-- Two threads whose ids hash to the same slot: both see it empty, and one of them gets it.
The other puts itself into the next, and finds itself there when it calls again. -/
def collision : List (HashAction Bool) :=
  List.flatten [[.call true, .call false],
    List.flatten (List.replicate 3 [.next true, .next false]),
    [.malloc true true, .malloc false true, .next true, .next false, .next true, .next false,
      .next true, .next false, .next false, .next true],
    List.replicate 3 (.next false), [.call false], List.replicate 3 (.next false)]

theorem producers_registered_collision : ∃ l : List (Bool × ProducerId),
    EventPath Registration.Next []
      [.listed true 0, .listed false 1, .answered true (some 0), .answered false (some 1),
        .answered false (some 1)] l ∧ l.map Prod.snd = [1, 0] := by
  have hlist : ((machine fun _ : Bool => 5).run initial collision).map
    (fun s => s.producerListTail) = some [1, 0] := by decide +kernel
  obtain ⟨s, hrun, hs⟩ := Option.map_eq_some_iff.mp hlist
  obtain ⟨l, hpath, hl⟩ := producers_registered hrun
  have htrace : (machine fun _ : Bool => 5).trace event initial collision =
      [.listed true 0, .listed false 1, .answered true (some 0), .answered false (some 1),
        .answered false (some 1)] := by decide +kernel
  rw [htrace] at hpath
  exact ⟨l, hpath, hl.trans hs⟩

/-- Two answers are of one thread id if and only if they are of one producer. -/
theorem answered_iff {p q : ProducerId}
    (hrun : (machine hashedId).run initial as = some s)
    (ht : .answered t (some p) ∈ (machine hashedId).trace event initial as)
    (hu : .answered u (some q) ∈ (machine hashedId).trace event initial as) : t = u ↔ p = q := by
  obtain ⟨g, hpath, -⟩ := Ok.run hrun
  have hproper := Registration.path_proper hpath .nil
  have hp := Registration.mem_of_answered hpath ht
  have hq := Registration.mem_of_answered hpath hu
  constructor
  · intro heq
    exact congrArg Prod.snd (hproper.thread _ hp _ hq heq)
  · intro heq
    exact congrArg Prod.fst (hproper.producer _ hp _ hq heq)

/-- What the comments of the loops say: a slot of each table is empty, so that a search of it
ends, and the thread that has had the lock has room. -/
theorem producers_room (hrun : (machine hashedId).run initial as = some s) :
    (∀ k < s.allocated, ∃ i < (s.hashes k).capacity, (s.hashes k).key i = none) ∧
      ∀ t main newCount, s.place t = .clear main newCount →
        s.room main newCount = .create main := by
  obtain ⟨g, -, hok⟩ := Ok.run hrun
  refine ⟨fun k hk => (hok.hash k hk).exists_empty hok.ranked, fun t main newCount hp => ?_⟩
  obtain ⟨hmain, -, hcrowded⟩ := hok.atPlace hp
  obtain ⟨m, hm⟩ := hok.capacity hmain
  rw [ProducerHash.room, if_pos]
  rw [ImplicitProducerHash.hasRoom_iff hm]
  rw [Bool.eq_false_iff, Ne, ImplicitProducerHash.crowded_iff hm] at hcrowded
  omega

theorem producers_room_collision : ∃ s : ProducerHash Bool,
    (machine fun _ => 5).run initial collision = some s ∧
      ∃ i < (s.hashes 0).capacity, (s.hashes 0).key i = none := by
  have hmade : ((machine fun _ : Bool => 5).run initial collision).map (fun s => s.allocated) =
    some 1 := by decide +kernel
  obtain ⟨s, hrun, hs⟩ := Option.map_eq_some_iff.mp hmade
  exact ⟨s, hrun, (producers_room hrun).1 0 (by rw [hs]; exact Nat.one_pos)⟩

end Rtlog.Queue
