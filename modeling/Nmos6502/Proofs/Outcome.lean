import Mathlib.Data.List.Forall2

set_option autoImplicit false

namespace Nmos6502.Outcome

variable {ε ε' α β γ σ : Type}

theorem bind_eq_ok_iff {x : Except ε α} {f : α → Except ε β} {b : β} :
    (x >>= f) = .ok b ↔ ∃ a, x = .ok a ∧ f a = .ok b := by
  cases x with
  | error e => simp [bind, Except.bind]
  | ok a => simp [bind, Except.bind]

theorem bind_eq_error_iff {x : Except ε α} {f : α → Except ε β} {e : ε} :
    (x >>= f) = .error e ↔ x = .error e ∨ ∃ a, x = .ok a ∧ f a = .error e := by
  cases x with
  | error e' => simp [bind, Except.bind]
  | ok a => simp [bind, Except.bind]

theorem pure_eq_ok_iff {a b : α} : (pure a : Except ε α) = .ok b ↔ a = b := by
  simp [pure, Except.pure]

theorem map_eq_ok_iff {x : Except ε α} {f : α → β} {b : β} :
    x.map f = .ok b ↔ ∃ a, x = .ok a ∧ f a = b := by
  cases x <;> simp [Except.map]

theorem map_eq_error_iff {x : Except ε α} {f : α → β} {e : ε} :
    x.map f = .error e ↔ x = .error e := by
  cases x <;> simp [Except.map]

theorem mapError_eq_ok_iff {x : Except ε α} {f : ε → ε'} {a : α} :
    x.mapError f = .ok a ↔ x = .ok a := by
  cases x <;> simp [Except.mapError]

theorem mapError_eq_error_iff {x : Except ε α} {f : ε → ε'} {e : ε'} :
    x.mapError f = .error e ↔ ∃ cause, x = .error cause ∧ f cause = e := by
  cases x <;> simp [Except.mapError]

theorem mapM_eq_ok_iff {f : α → Except ε β} {xs : List α} {ys : List β} :
    xs.mapM f = .ok ys ↔ List.Forall₂ (fun x y => f x = .ok y) xs ys := by
  induction xs generalizing ys with
  | nil => rw [List.mapM_nil, pure_eq_ok_iff, List.forall₂_nil_left_iff, eq_comm]
  | cons x xs ih =>
    simp only [List.mapM_cons, bind_eq_ok_iff, pure_eq_ok_iff, ih, List.forall₂_cons_left_iff]
    exact ⟨fun ⟨y, hy, rest, hrest, he⟩ => ⟨y, rest, hy, hrest, he.symm⟩,
      fun ⟨y, rest, hy, hrest, he⟩ => ⟨y, hy, rest, hrest, he.symm⟩⟩

theorem mapM_eq_error_iff {f : α → Except ε β} {xs : List α} {e : ε} :
    xs.mapM f = .error e ↔ ∃ before x behind, xs = before ++ x :: behind ∧
      (∀ y ∈ before, ∃ b, f y = .ok b) ∧ f x = .error e := by
  induction xs with
  | nil => simp [pure, Except.pure]
  | cons x xs ih =>
    simp only [List.mapM_cons, bind_eq_error_iff]
    constructor
    · rintro (hfirst | ⟨y, hy, hrest | ⟨ys, -, hpure⟩⟩)
      · exact ⟨[], x, xs, rfl, by simp, hfirst⟩
      · obtain ⟨before, z, behind, rfl, hbefore, hz⟩ := ih.mp hrest
        exact ⟨x :: before, z, behind, rfl, List.forall_mem_cons.mpr ⟨⟨y, hy⟩, hbefore⟩, hz⟩
      · cases hpure
    · rintro ⟨before, z, behind, hxs, hbefore, hz⟩
      cases before with
      | nil =>
        obtain ⟨rfl, rfl⟩ := List.cons.inj hxs
        exact .inl hz
      | cons y before =>
        obtain ⟨rfl, rfl⟩ := List.cons.inj hxs
        obtain ⟨⟨b, hb⟩, hbefore⟩ := List.forall_mem_cons.mp hbefore
        exact .inr ⟨b, hb, .inl (ih.mpr ⟨before, z, behind, rfl, hbefore, hz⟩)⟩

theorem mapM_map_mapError {f : α → Except ε β} {g : γ → Except ε' β} {φ : α → γ} {h : ε → ε'}
    (heq : ∀ x, g (φ x) = (f x).mapError h) (xs : List α) :
    (xs.map φ).mapM g = (xs.mapM f).mapError h := by
  induction xs with
  | nil => rfl
  | cons x xs ih =>
    rw [List.map_cons, List.mapM_cons, List.mapM_cons, ih, heq]
    cases f x with
    | error e => rfl
    | ok y => cases xs.mapM f <;> rfl

theorem foldlM_invariant {f : σ → α → Except ε σ} {Holds : σ → Prop} {xs : List α}
    (hstep : ∀ s s', ∀ x ∈ xs, Holds s → f s x = .ok s' → Holds s') {s s' : σ} (hs : Holds s)
    (hrun : xs.foldlM f s = .ok s') : Holds s' := by
  induction xs generalizing s with
  | nil =>
    obtain rfl := pure_eq_ok_iff.mp hrun
    exact hs
  | cons x xs ih =>
    rw [List.foldlM_cons, bind_eq_ok_iff] at hrun
    obtain ⟨middle, hfirst, hrest⟩ := hrun
    exact ih (fun s s' y hy => hstep s s' y (List.mem_cons_of_mem x hy))
      (hstep s middle x List.mem_cons_self hs hfirst) hrest

theorem foldlM_eq_error_iff {f : σ → α → Except ε σ} {xs : List α} {s : σ} {e : ε} :
    xs.foldlM f s = .error e ↔ ∃ before x behind s', xs = before ++ x :: behind ∧
      before.foldlM f s = .ok s' ∧ f s' x = .error e := by
  induction xs generalizing s with
  | nil => simp [pure, Except.pure]
  | cons x xs ih =>
    rw [List.foldlM_cons, bind_eq_error_iff]
    constructor
    · rintro (hfirst | ⟨middle, hmiddle, hrest⟩)
      · exact ⟨[], x, xs, s, rfl, rfl, hfirst⟩
      · obtain ⟨before, y, behind, s', rfl, hbefore, hy⟩ := ih.mp hrest
        refine ⟨x :: before, y, behind, s', rfl, ?_, hy⟩
        exact bind_eq_ok_iff.mpr ⟨middle, hmiddle, hbefore⟩
    · rintro ⟨before, y, behind, s', hxs, hbefore, hy⟩
      cases before with
      | nil =>
        obtain ⟨rfl, rfl⟩ := List.cons.inj hxs
        obtain rfl := pure_eq_ok_iff.mp hbefore
        exact .inl hy
      | cons z before =>
        obtain ⟨rfl, rfl⟩ := List.cons.inj hxs
        obtain ⟨middle, hmiddle, hbefore⟩ := bind_eq_ok_iff.mp hbefore
        exact .inr ⟨middle, hmiddle, ih.mpr ⟨before, y, behind, s', rfl, hbefore, hy⟩⟩

/-- Whether two computations fail alike, or both succeed with related results. -/
inductive Agree (R : α → β → Prop) : Except ε α → Except ε β → Prop
  | error (e : ε) : Agree R (.error e) (.error e)
  | ok {a : α} {b : β} (h : R a b) : Agree R (.ok a) (.ok b)

namespace Agree

theorem mapError {R : α → β → Prop} {x : Except ε α} {y : Except ε β} (h : Agree R x y)
    (f : ε → ε') : Agree R (x.mapError f) (y.mapError f) := by
  cases h with
  | error e => exact .error (f e)
  | ok h => exact .ok h

theorem map {σ' : Type} {R : α → β → Prop} {S : σ → σ' → Prop} {x : Except ε α} {y : Except ε β}
    {f : α → σ} {g : β → σ'} (h : Agree R x y) (hmap : ∀ a b, R a b → S (f a) (g b)) :
    Agree S (x.map f) (y.map g) := by
  cases h with
  | error e => exact .error e
  | ok h => exact .ok (hmap _ _ h)

theorem mono {R S : α → β → Prop} {x : Except ε α} {y : Except ε β} (h : Agree R x y)
    (hmono : ∀ a b, R a b → S a b) : Agree S x y := by
  cases h with
  | error e => exact .error e
  | ok h => exact .ok (hmono _ _ h)

theorem and_ok {R : α → β → Prop} {x : Except ε α} {y : Except ε β} (h : Agree R x y) :
    Agree (fun a b => x = .ok a ∧ y = .ok b ∧ R a b) x y := by
  cases h with
  | error e => exact .error e
  | ok h => exact .ok ⟨rfl, rfl, h⟩

theorem mapM {R : α → β → γ → Prop} {f : α → Except ε β} {g : α → Except ε γ} {xs : List α}
    (h : ∀ x ∈ xs, Agree (R x) (f x) (g x)) :
    Agree (fun ys zs => ∃ runs : List (α × β × γ), runs.map (fun run => run.1) = xs ∧
        runs.map (fun run => run.2.1) = ys ∧ runs.map (fun run => run.2.2) = zs ∧
        ∀ run ∈ runs, R run.1 run.2.1 run.2.2)
      (xs.mapM f) (xs.mapM g) := by
  induction xs with
  | nil => exact .ok ⟨[], rfl, rfl, rfl, by simp⟩
  | cons x xs ih =>
    have hrest := ih fun y hy => h y (List.mem_cons_of_mem x hy)
    have hfirst := h x List.mem_cons_self
    rw [List.mapM_cons, List.mapM_cons]
    generalize f x = fx at hfirst
    generalize g x = gx at hfirst
    generalize xs.mapM f = fs at hrest
    generalize xs.mapM g = gs at hrest
    cases hfirst with
    | error e => exact .error e
    | ok hxy =>
      cases hrest with
      | error e => exact .error e
      | ok hruns =>
        obtain ⟨runs, rfl, rfl, rfl, hruns⟩ := hruns
        exact .ok ⟨(x, _, _) :: runs, rfl, rfl, rfl, List.forall_mem_cons.mpr ⟨hxy, hruns⟩⟩

end Agree
end Nmos6502.Outcome
