/-
# `Rtlog.Base.Machine` — machines stepped by named actions

A concurrent program is given here as a *partial step function*: everything
the environment decides (which thread moves, whether an operation is refused,
how much of a buffer is spilled) is part of the action, so a schedule is a list
of actions, a run is a fold, and a concrete run can be evaluated.

Eight rules are what the rest of a development uses:

    invariant, every step           `run_invariant`
    invariant, steps meeting `P`    `Along.invariant`
    how many steps of a kind        `Along.countP_add_le`
    two runs, silent steps apart    `noninterference`
    what a run adds up to           `amortized`
    a run answered by another       `simulation`
    a run answered by its events    `Along.refines`
    a run with another's events     `Along.matched`

and one construction: `withHistory` adds a record of what happened that no
step reads.  `withHistory_run_now` and `exists_withHistory_run` say that the
record neither removes nor adds a run, so a theorem about recorded runs is a
theorem about the machine's own runs.
-/
import Mathlib

/-- A machine: what state each action leads to, if it is enabled. -/
structure Machine (S A : Type) where
  step : S → A → Option S

namespace Machine

variable {S A : Type} (M : Machine S A)

/-! ## Runs -/

/-- The state a schedule leads to, if every action of it is enabled in turn. -/
def run : S → List A → Option S
  | s, [] => some s
  | s, a :: as => (M.step s a).bind fun s' => run s' as

@[simp] theorem run_nil (s : S) : M.run s [] = some s := rfl

theorem run_cons_eq_some {s t : S} {a : A} {as : List A} :
    M.run s (a :: as) = some t ↔ ∃ s', M.step s a = some s' ∧ M.run s' as = some t := by
  simp only [run, Option.bind_eq_some_iff]

theorem run_append {s : S} {as bs : List A} :
    M.run s (as ++ bs) = (M.run s as).bind fun t => M.run t bs := by
  induction as generalizing s with
  | nil => rfl
  | cons a as ih =>
      simp only [List.cons_append, run, Option.bind_assoc]
      exact congrArg _ (funext fun s' => ih)

/-! ## What holds along a run -/

/-- Every step of the run of `as` from `s` satisfies `P`. -/
def Along (P : S → A → S → Prop) : S → List A → Prop
  | _, [] => True
  | s, a :: as => ∀ s', M.step s a = some s' → P s a s' ∧ Along P s' as

variable {M}

/-- A predicate that every step meeting `P` preserves is preserved by every
run whose steps all meet `P`. -/
theorem Along.invariant {P : S → A → S → Prop} {I : S → Prop}
    (hstep : ∀ s a s', I s → M.step s a = some s' → P s a s' → I s') :
    ∀ {as : List A} {s t : S}, M.Along P s as → I s → M.run s as = some t → I t := by
  intro as
  induction as with
  | nil =>
      intro s t _ hI hrun
      cases hrun
      exact hI
  | cons a as ih =>
      intro s t hP hI hrun
      obtain ⟨s', hs, hrun⟩ := (M.run_cons_eq_some).mp hrun
      obtain ⟨hp, hP⟩ := hP s' hs
      exact ih hP (hstep s a s' hI hs hp) hrun

/-- A run whose steps do not all meet `P` has a step that does not. -/
theorem exists_step_of_not_along {P : S → A → S → Prop} :
    ∀ {as : List A} {s t : S}, M.run s as = some t → ¬ M.Along P s as →
      ∃ pre a post u v, as = pre ++ a :: post ∧ M.run s pre = some u ∧ M.step u a = some v ∧
        ¬ P u a v ∧ M.run v post = some t := by
  intro as
  induction as with
  | nil => intro s t _ h; exact absurd trivial h
  | cons a as ih =>
      intro s t hrun h
      obtain ⟨s', hs, hrun⟩ := (M.run_cons_eq_some).mp hrun
      by_cases hp : P s a s'
      · have hrest : ¬ M.Along P s' as := by
          intro hrest
          refine h ?_
          intro s₁ hs₁
          cases hs.symm.trans hs₁
          exact ⟨hp, hrest⟩
        obtain ⟨pre, b, post, u, v, rfl, hu, hv, hnp, ht⟩ := ih hrun hrest
        exact ⟨a :: pre, b, post, u, v, rfl, (M.run_cons_eq_some).mpr ⟨s', hs, hu⟩, hv, hnp, ht⟩
      · exact ⟨[], a, as, s, s', rfl, rfl, hs, hp, hrun⟩

theorem along_true : ∀ {as : List A} {s : S}, M.Along (fun _ _ _ => True) s as
  | [], _ => trivial
  | _ :: _, _ => fun _ _ => ⟨trivial, along_true⟩

/-- A predicate that every step preserves is preserved by every run. -/
theorem run_invariant {I : S → Prop}
    (hstep : ∀ s a s', I s → M.step s a = some s' → I s')
    {as : List A} {s t : S} (hI : I s) (hrun : M.run s as = some t) : I t :=
  Along.invariant (P := fun _ _ _ => True) (fun s a s' h hs _ => hstep s a s' h hs)
    along_true hI hrun

theorem Along.imp {P Q : S → A → S → Prop}
    (h : ∀ s a s', M.step s a = some s' → P s a s' → Q s a s') :
    ∀ {as : List A} {s : S}, M.Along P s as → M.Along Q s as
  | [], _, _ => trivial
  | a :: _, s, hP => fun s' hs => ⟨h s a s' hs (hP s' hs).1, ((hP s' hs).2).imp h⟩

theorem Along.cons {P : S → A → S → Prop} {s s' : S} {a : A} {as : List A}
    (hs : M.step s a = some s') (hp : P s a s') (h : M.Along P s' as) : M.Along P s (a :: as) := by
  intro s₁ hs₁
  cases hs.symm.trans hs₁
  exact ⟨hp, h⟩

/-- Whether a concrete run meets `P` can be computed. -/
instance decidableAlong {P : S → A → S → Prop} [h : ∀ s a s', Decidable (P s a s')] :
    ∀ (as : List A) (s : S), Decidable (M.Along P s as)
  | [], _ => isTrue trivial
  | a :: as, s =>
      match hs : M.step s a with
      | none => isTrue fun _ hs' => nomatch hs.symm.trans hs'
      | some s' =>
          have : Decidable (M.Along P s' as) := decidableAlong as s'
          decidable_of_iff (P s a s' ∧ M.Along P s' as)
            ⟨fun hp => .cons hs hp.1 hp.2, fun h => h s' hs⟩

/-- What holds of the actions holds along the run. -/
theorem Along.of_forall_mem {P : A → Prop} :
    ∀ {as : List A} {s : S}, (∀ a ∈ as, P a) → M.Along (fun _ a _ => P a) s as
  | [], _, _ => trivial
  | a :: _, _, h => fun _ _ =>
      ⟨h a List.mem_cons_self, of_forall_mem fun b hb => h b (List.mem_cons_of_mem a hb)⟩

/-- What an invariant implies holds along every run. -/
theorem Along.of_invariant {P : S → A → S → Prop} {I : S → Prop}
    (hstep : ∀ s a s', I s → M.step s a = some s' → P s a s' ∧ I s') :
    ∀ {as : List A} {s : S}, I s → M.Along P s as
  | [], _, _ => trivial
  | a :: _, s, hI => fun s' hs =>
      ⟨(hstep s a s' hI hs).1, of_invariant hstep (hstep s a s' hI hs).2⟩

/-- What holds along a run holds along its beginning. -/
theorem Along.of_append {P : S → A → S → Prop} :
    ∀ {as bs : List A} {s : S}, M.Along P s (as ++ bs) → M.Along P s as
  | [], _, _, _ => trivial
  | _ :: _, _, _, h => fun s' hs => ⟨(h s' hs).1, (h s' hs).2.of_append⟩

/-- ... and along its end. -/
theorem Along.drop_append {P : S → A → S → Prop} :
    ∀ {as bs : List A} {s t : S}, M.Along P s (as ++ bs) → M.run s as = some t → M.Along P t bs
  | [], _, _, _, h, hrun => by
      cases hrun
      exact h
  | _ :: _, _, _, _, h, hrun => by
      obtain ⟨s', hs, hrun⟩ := (M.run_cons_eq_some).mp hrun
      exact (h s' hs).2.drop_append hrun

/-- If the steps of `own` lower `μ`, and the others leave it, a run has no more of them than
`μ` allows. -/
theorem Along.countP_add_le {P : S → A → S → Prop} {own : A → Bool} {μ : S → Nat}
    (hstep : ∀ s a s', M.step s a = some s' → P s a s' →
      own a = true ∧ μ s' < μ s ∨ own a = false ∧ μ s' = μ s) :
    ∀ {as : List A} {s t : S}, M.Along P s as → M.run s as = some t →
      as.countP own + μ t ≤ μ s := by
  intro as
  induction as with
  | nil =>
      intro s t _ hrun
      cases hrun
      rw [List.countP_nil, Nat.zero_add]
  | cons a as ih =>
      intro s t hP hrun
      obtain ⟨s', hs, hrun⟩ := (M.run_cons_eq_some).mp hrun
      obtain ⟨hp, hP⟩ := hP s' hs
      have hle := ih hP hrun
      rcases hstep s a s' hs hp with ⟨hown, hlt⟩ | ⟨hown, heq⟩
      · rw [List.countP_cons_of_pos hown]
        omega
      · rw [List.countP_cons_of_neg (by rw [hown]; decide), ← heq]
        exact hle

end Machine

/-! ## History

A record that the steps write and never read.  Theorems about whole runs are
stated over the recorded machine; the two lemmas after the construction carry
them back. -/

/-- A state together with the record of how it was reached. -/
structure Recorded (S H : Type) where
  now : S
  hist : H

namespace Machine

variable {S A H : Type} (M : Machine S A) (note : S → A → S → H → H)

/-- `M`, writing down each step with `note`. -/
def withHistory : Machine (Recorded S H) A where
  step w a := (M.step w.now a).map fun s' => ⟨s', note w.now a s' w.hist⟩

theorem withHistory_step_eq_some {w w' : Recorded S H} {a : A} :
    (M.withHistory note).step w a = some w' ↔
      M.step w.now a = some w'.now ∧ w'.hist = note w.now a w'.now w.hist := by
  simp only [withHistory, Option.map_eq_some_iff]
  constructor
  · rintro ⟨s', hs, rfl⟩
    exact ⟨hs, rfl⟩
  · rintro ⟨hs, hh⟩
    exact ⟨w'.now, hs, by rw [← hh]⟩

/-- A recorded run is a run of the machine. -/
theorem withHistory_run_now : ∀ {as : List A} {w w' : Recorded S H},
    (M.withHistory note).run w as = some w' → M.run w.now as = some w'.now
  | [], _, _, h => by cases h; rfl
  | a :: as, w, w', h => by
      obtain ⟨v, hv, hrun⟩ := ((M.withHistory note).run_cons_eq_some).mp h
      exact (M.run_cons_eq_some).mpr
        ⟨v.now, ((M.withHistory_step_eq_some note).mp hv).1, withHistory_run_now hrun⟩

/-- Every run of the machine can be recorded, from any record. -/
theorem exists_withHistory_run : ∀ {as : List A} {s t : S} (h : H),
    M.run s as = some t →
      ∃ h', (M.withHistory note).run ⟨s, h⟩ as = some ⟨t, h'⟩
  | [], _, _, h, hrun => by cases hrun; exact ⟨h, rfl⟩
  | a :: as, s, t, h, hrun => by
      obtain ⟨s', hs, hrun⟩ := (M.run_cons_eq_some).mp hrun
      obtain ⟨h', hrec⟩ := exists_withHistory_run (note s a s' h) hrun
      exact ⟨h', ((M.withHistory note).run_cons_eq_some).mpr
        ⟨⟨s', note s a s' h⟩, (M.withHistory_step_eq_some note).mpr ⟨hs, rfl⟩, hrec⟩⟩

end Machine

/-! ## Two runs that differ in silent steps

`vis` says which actions a second run has to repeat, `obs` what a visible step
reads of the part of the state the two runs may disagree about. -/

namespace Machine

variable {S A O : Type} (M : Machine S A)

/-- What the visible steps of a run read, in order. -/
def views (vis : A → Bool) (obs : S → A → O) : S → List A → List O
  | _, [] => []
  | s, a :: as =>
      match M.step s a with
      | none => []
      | some s' => if vis a then obs s a :: views vis obs s' as else views vis obs s' as

variable {M} {vis : A → Bool} {obs : S → A → O}

theorem views_cons_of_visible {s s' : S} {a : A} {as : List A} (hs : M.step s a = some s')
    (hv : vis a = true) :
    M.views vis obs s (a :: as) = obs s a :: M.views vis obs s' as := by
  simp [views, hs, hv]

theorem views_cons_of_silent {s s' : S} {a : A} {as : List A} (hs : M.step s a = some s')
    (hv : vis a = false) : M.views vis obs s (a :: as) = M.views vis obs s' as := by
  simp [views, hs, hv]

/-- If silent steps keep `R` on either side, and visible steps that read the
same keep it together, then two runs with the same visible actions and the same
views end in related states. -/
theorem noninterference {R : S → S → Prop}
    (hleft : ∀ s s' t a, vis a = false → M.step s a = some s' → R s t → R s' t)
    (hright : ∀ s t t' a, vis a = false → M.step t a = some t' → R s t → R s t')
    (hboth : ∀ s s' t t' a, vis a = true → obs s a = obs t a → M.step s a = some s' →
      M.step t a = some t' → R s t → R s' t') :
    ∀ {as bs : List A} {s s' t t' : S}, as.filter vis = bs.filter vis →
      M.views vis obs s as = M.views vis obs t bs →
      M.run s as = some s' → M.run t bs = some t' → R s t → R s' t' := by
  intro as
  induction as with
  | nil =>
      intro bs s s' t t' hf hw hs ht hR
      cases hs
      induction bs generalizing t with
      | nil => cases ht; exact hR
      | cons b bs ih =>
          have hb : vis b = false := by
            by_contra hb
            simp [hb] at hf
          obtain ⟨t₁, ht₁, ht⟩ := (M.run_cons_eq_some).mp ht
          refine ih (by simpa [hb] using hf) ?_ ht (hright _ _ _ _ hb ht₁ hR)
          rw [hw, views_cons_of_silent ht₁ hb]
  | cons a as iha =>
      intro bs s s' t t' hf hw hs ht hR
      obtain ⟨s₁, hs₁, hs'⟩ := (M.run_cons_eq_some).mp hs
      by_cases ha : vis a = true
      · induction bs generalizing t with
        | nil => simp [ha] at hf
        | cons b bs ihb =>
            obtain ⟨t₁, ht₁, ht'⟩ := (M.run_cons_eq_some).mp ht
            by_cases hb : vis b = true
            · -- both heads are visible: they are the same action, and read the same
              simp only [List.filter_cons, ha, hb, if_true, List.cons.injEq] at hf
              obtain ⟨rfl, hf⟩ := hf
              rw [views_cons_of_visible hs₁ ha, views_cons_of_visible ht₁ hb] at hw
              obtain ⟨ho, hw⟩ := List.cons.inj hw
              exact iha hf hw hs' ht' (hboth _ _ _ _ _ ha ho hs₁ ht₁ hR)
            · have hb : vis b = false := by simpa using hb
              refine ihb (by simpa [hb] using hf) ?_ ht' (hright _ _ _ _ hb ht₁ hR)
              rw [hw, views_cons_of_silent ht₁ hb]
      · have ha : vis a = false := by simpa using ha
        refine iha (by simpa [ha] using hf) ?_ hs' ht (hleft _ _ _ _ ha hs₁ hR)
        rw [← hw, views_cons_of_silent hs₁ ha]

end Machine

/-! ## What a run adds up to

Each step spends some, earns some, and moves a balance.  If no step leaves the
balance higher than what it earned allows, no run does. -/

namespace Machine

variable {S A : Type} (M : Machine S A)

/-- The sum of `w` over the steps of a run. -/
def total (w : S → A → Nat) : S → List A → Nat
  | _, [] => 0
  | s, a :: as =>
      match M.step s a with
      | none => 0
      | some s' => w s a + total w s' as

variable {M} {w : S → A → Nat}

theorem total_cons {s s' : S} {a : A} {as : List A} (hs : M.step s a = some s') :
    M.total w s (a :: as) = w s a + M.total w s' as := by
  simp [total, hs]

theorem total_append {as bs : List A} {s t : S} (hrun : M.run s as = some t) :
    M.total w s (as ++ bs) = M.total w s as + M.total w t bs := by
  induction as generalizing s with
  | nil =>
      cases hrun
      exact (Nat.zero_add _).symm
  | cons a as ih =>
      obtain ⟨s', hs, hrun⟩ := (M.run_cons_eq_some).mp hrun
      rw [List.cons_append, total_cons hs, total_cons hs, ih hrun, Nat.add_assoc]

theorem total_mul (k : Nat) : ∀ (as : List A) (s : S),
    M.total (fun s a => k * w s a) s as = k * M.total w s as := by
  intro as
  induction as with
  | nil => intro s; rfl
  | cons a as ih =>
      intro s
      cases hs : M.step s a with
      | none => simp [total, hs]
      | some s' => rw [total_cons hs, total_cons hs, ih, Nat.mul_add]

/-- `Φ s n` says that the balance at `s` is `n`. -/
theorem amortized {spent earned : S → A → Nat} {Φ : S → Nat → Prop}
    (hstep : ∀ s a s' n, Φ s n → M.step s a = some s' →
      ∃ n', Φ s' n' ∧ spent s a + n' ≤ earned s a + n) :
    ∀ {as : List A} {s t : S} {n : Nat}, Φ s n → M.run s as = some t →
      ∃ n', Φ t n' ∧ M.total spent s as + n' ≤ M.total earned s as + n := by
  intro as
  induction as with
  | nil =>
      intro s t n hΦ hrun
      cases hrun
      exact ⟨n, hΦ, Nat.le_refl _⟩
  | cons a as ih =>
      intro s t n hΦ hrun
      obtain ⟨s', hs, hrun⟩ := (M.run_cons_eq_some).mp hrun
      obtain ⟨n₁, hΦ₁, h₁⟩ := hstep s a s' n hΦ hs
      obtain ⟨n₂, hΦ₂, h₂⟩ := ih hΦ₁ hrun
      refine ⟨n₂, hΦ₂, ?_⟩
      rw [total_cons hs, total_cons hs]
      omega

end Machine

/-! ## Reaching a state -/

namespace Machine

variable {S A : Type} (M : Machine S A)

/-- Some run leads from `s` to `t`. -/
def Reaches (s t : S) : Prop := ∃ as, M.run s as = some t

variable {M}

theorem Reaches.refl (s : S) : M.Reaches s s := ⟨[], rfl⟩

theorem Reaches.step {s s' t : S} (a : A) (hs : M.step s a = some s') (h : M.Reaches s' t) :
    M.Reaches s t := by
  obtain ⟨as, hrun⟩ := h
  exact ⟨a :: as, (M.run_cons_eq_some).mpr ⟨s', hs, hrun⟩⟩

theorem Reaches.trans {s t u : S} (h : M.Reaches s t) (h' : M.Reaches t u) : M.Reaches s u := by
  obtain ⟨as, hrun⟩ := h
  obtain ⟨bs, hrun'⟩ := h'
  refine ⟨as ++ bs, ?_⟩
  rw [run_append, hrun]
  exact hrun'

end Machine

/-! ## One machine answering another

`vis` and `vis'` say which actions of the two machines are the same action of the
environment; the others each machine makes on its own. -/

namespace Machine

variable {S A S' A' O : Type} {M : Machine S A} {N : Machine S' A'} {vis : A → Option O}
  {vis' : A' → Option O}

/-- If `N` answers every step of `M` with a run that has the same visible actions,
it answers every run of `M` so. -/
theorem simulation {R : S → S' → Prop}
    (hstep : ∀ s s₁ t a, R s t → M.step s a = some s₁ →
      ∃ bs t₁, bs.filterMap vis' = (vis a).toList ∧ N.run t bs = some t₁ ∧ R s₁ t₁) :
    ∀ {as : List A} {s s₁ : S} {t : S'}, R s t → M.run s as = some s₁ →
      ∃ bs t₁, bs.filterMap vis' = as.filterMap vis ∧ N.run t bs = some t₁ ∧ R s₁ t₁ := by
  intro as
  induction as with
  | nil =>
      intro s s₁ t hR hrun
      cases hrun
      exact ⟨[], t, rfl, rfl, hR⟩
  | cons a as ih =>
      intro s s₁ t hR hrun
      obtain ⟨s', hs, hrun⟩ := (M.run_cons_eq_some).mp hrun
      obtain ⟨bs, t', hbs, hrun', hR'⟩ := hstep s s' t a hR hs
      obtain ⟨cs, t₁, hcs, hrun₁, hR₁⟩ := ih hR' hrun
      refine ⟨bs ++ cs, t₁, ?_, ?_, hR₁⟩
      · rw [List.filterMap_append, hbs, hcs]
        cases hv : vis a with
        | none => rw [List.filterMap_cons_none hv]; rfl
        | some o => rw [List.filterMap_cons_some hv]; rfl
      · rw [run_append, hrun']
        exact hrun₁

end Machine

/-! ## One machine seen through its events

What an observer of a run writes down may depend on the state as well as on the
action.  The specification is then a relation `next` between states of its own,
labelled by events, and a run refines it when its events are a path of `next`. -/

/-- `next` leads from `t` to `u` by the events in the list. -/
inductive EventPath {T E : Type} (next : T → E → T → Prop) : T → List E → T → Prop
  | nil (t : T) : EventPath next t [] t
  | cons {t t' u : T} {e : E} {es : List E} (h : next t e t') (rest : EventPath next t' es u) :
      EventPath next t (e :: es) u

theorem EventPath.append {T E : Type} {next : T → E → T → Prop} {t u w : T} {es fs : List E}
    (h : EventPath next t es u) (h' : EventPath next u fs w) : EventPath next t (es ++ fs) w := by
  induction h with
  | nil t => exact h'
  | cons hn _ ih => exact .cons hn (ih h')

theorem EventPath.eq_of_nil {T E : Type} {next : T → E → T → Prop} {t u : T}
    (h : EventPath next t [] u) : u = t := by
  cases h
  rfl

theorem EventPath.of_singleton {T E : Type} {next : T → E → T → Prop} {t u : T} {e : E}
    (h : EventPath next t [e] u) : next t e u := by
  cases h with
  | cons hn rest => exact rest.eq_of_nil ▸ hn

namespace Machine

variable {S A T E : Type} (M : Machine S A)

/-- The events of a run. -/
def trace (event : S → A → S → Option E) : S → List A → List E
  | _, [] => []
  | s, a :: as =>
      match M.step s a with
      | none => []
      | some s' => (event s a s').toList ++ trace event s' as

variable {M} {event : S → A → S → Option E} {next : T → E → T → Prop}

theorem trace_cons {s s' : S} {a : A} {as : List A} (hs : M.step s a = some s') :
    M.trace event s (a :: as) = (event s a s').toList ++ M.trace event s' as := by
  simp only [trace, hs]

/-- If the specification answers every step that meets `P` by its event, it answers
every run of such steps by its events. -/
theorem Along.refines {P : S → A → S → Prop} {R : S → T → Prop}
    (hstep : ∀ s a s' t, R s t → M.step s a = some s' → P s a s' →
      ∃ t', EventPath next t (event s a s').toList t' ∧ R s' t') :
    ∀ {as : List A} {s s' : S} {t : T}, M.Along P s as → R s t → M.run s as = some s' →
      ∃ t', EventPath next t (M.trace event s as) t' ∧ R s' t' := by
  intro as
  induction as with
  | nil =>
      intro s s' t _ hR hrun
      cases hrun
      exact ⟨t, .nil t, hR⟩
  | cons a as ih =>
      intro s s' t hP hR hrun
      obtain ⟨s₁, hs, hrun⟩ := (M.run_cons_eq_some).mp hrun
      obtain ⟨hp, hP⟩ := hP s₁ hs
      obtain ⟨t₁, hpath, hR₁⟩ := hstep s a s₁ t hR hs hp
      obtain ⟨t', hpath', hR'⟩ := ih hP hR₁ hrun
      rw [trace_cons hs]
      exact ⟨t', hpath.append hpath', hR'⟩

variable {S' A' E' : Type} {N : Machine S' A'} {event' : S' → A' → S' → Option E'} {f : E → E'}

/-- If every step of `M` that meets `P` is answered by one of `N` that meets `Q` and shows the
same, or by none if it shows nothing, every run of such steps is answered by a run of `N`
that shows the same. -/
theorem Along.matched {P : S → A → S → Prop} {Q : S' → A' → S' → Prop} {R : S → S' → Prop}
    (hstep : ∀ s a s' t, R s t → M.step s a = some s' → P s a s' →
      event s a s' = none ∧ R s' t ∨
        ∃ b t', N.step t b = some t' ∧ Q t b t' ∧ (event s a s').map f = event' t b t' ∧ R s' t') :
    ∀ {as : List A} {s s' : S} {t : S'}, M.Along P s as → R s t → M.run s as = some s' →
      ∃ bs t', N.run t bs = some t' ∧ N.Along Q t bs ∧
        (M.trace event s as).map f = N.trace event' t bs ∧ R s' t' := by
  intro as
  induction as with
  | nil =>
      intro s s' t _ hR hrun
      cases hrun
      exact ⟨[], t, rfl, trivial, rfl, hR⟩
  | cons a as ih =>
      intro s s' t hP hR hrun
      obtain ⟨s₁, hs, hrun⟩ := (M.run_cons_eq_some).mp hrun
      obtain ⟨hp, hP⟩ := hP s₁ hs
      rw [trace_cons hs, List.map_append]
      rcases hstep s a s₁ t hR hs hp with ⟨he, hR₁⟩ | ⟨b, t₁, hb, hq, he, hR₁⟩
      · obtain ⟨bs, t', hbs, hQ, htrace, hR'⟩ := ih hP hR₁ hrun
        exact ⟨bs, t', hbs, hQ, by rw [he, htrace]; rfl, hR'⟩
      · obtain ⟨bs, t', hbs, hQ, htrace, hR'⟩ := ih hP hR₁ hrun
        refine ⟨b :: bs, t', (N.run_cons_eq_some).mpr ⟨t₁, hb, hbs⟩, .cons hb hq hQ, ?_, hR'⟩
        rw [trace_cons hb, ← he, htrace, Option.toList_map]

end Machine
