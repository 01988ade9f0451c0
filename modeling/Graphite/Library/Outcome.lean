import Mathlib.Logic.Basic

/-! # Fallible programs and their runs

A program returns a value or stops with an error. `Sat` is its specification, a condition on the value
and one on the error, with a rule for each construct. The steps of a `System` are such programs, and
one rule derives a property of all its runs, and of the errors they can end in, from a single step.
-/

namespace Outcome

universe u

variable {ε σ ω : Type*} {α β : Type u}

/-- `x` returns a value with `Q`, or stops with an error with `E`. -/
def Sat (x : Except ε α) (E : ε → Prop) (Q : α → Prop) : Prop :=
  match x with
  | .ok a => Q a
  | .error e => E e

/-- A value that `x` returns has `Q`. -/
abbrev Ensures (x : Except ε α) (Q : α → Prop) : Prop := Sat x (fun _ => True) Q

/-- `x` returns a value with `Q`. -/
abbrev Returns (x : Except ε α) (Q : α → Prop) : Prop := Sat x (fun _ => False) Q

/-- An assertion: the program stops with `e` where `p` fails. -/
def check (p : Prop) [Decidable p] (e : ε) : Except ε Unit :=
  if p then .ok () else .error e

variable {E : ε → Prop} {Q P : α → Prop} {x : Except ε α} {f : α → Except ε β} {R : β → Prop}
  {e : ε} {a : α}

@[simp] theorem sat_ok : Sat (.ok a : Except ε α) E Q ↔ Q a := Iff.rfl

@[simp] theorem sat_pure : Sat (pure a : Except ε α) E Q ↔ Q a := Iff.rfl

@[simp] theorem sat_error : Sat (.error e : Except ε α) E Q ↔ E e := Iff.rfl

@[simp] theorem sat_throw : Sat (throw e : Except ε α) E Q ↔ E e := Iff.rfl

@[simp] theorem ok_bind : ((.ok a : Except ε α) >>= f) = f a := rfl

@[simp] theorem pure_eq_ok : (pure a : Except ε α) = .ok a := rfl

theorem mapM_eq_ok {g : α → β} {l : List α} (h : ∀ a ∈ l, f a = .ok (g a)) :
    l.mapM f = .ok (l.map g) := by
  induction l with
  | nil => rfl
  | cons a l ih =>
    rw [List.forall_mem_cons] at h
    rw [List.mapM_cons, h.1, ok_bind, ih h.2]
    rfl

theorem check_pos {p : Prop} [Decidable p] (h : p) : check p e = .ok () := if_pos h

theorem sat_bind : Sat (x >>= f) E R ↔ Sat x E fun a => Sat (f a) E R := by
  cases x <;> rfl

theorem sat_map {f : α → β} : Sat (f <$> x) E R ↔ Sat x E fun a => R (f a) := by
  cases x <;> rfl

@[simp] theorem sat_check {p : Prop} [Decidable p] {R : Unit → Prop} :
    Sat (check p e) E R ↔ (p → R ()) ∧ (¬ p → E e) := by
  unfold check
  by_cases h : p <;> simp [h]

theorem sat_check_bind {p : Prop} [Decidable p] {β : Type} {f : Unit → Except ε β} {R : β → Prop}
    (h : p → Sat (f ()) E R) (hn : ¬ p → E e) : Sat (check p e >>= f) E R :=
  sat_bind.mpr (sat_check.mpr ⟨h, hn⟩)

theorem Sat.imp {E' : ε → Prop} (h : Sat x E P) (hE : ∀ e, E e → E' e) (hQ : ∀ a, P a → Q a) :
    Sat x E' Q := by
  cases x with
  | ok a => exact hQ a h
  | error e => exact hE e h

theorem Sat.and {F : ε → Prop} (h : Sat x E P) (h' : Sat x F Q) :
    Sat x (fun e => E e ∧ F e) fun a => P a ∧ Q a := by
  cases x with
  | ok a => exact ⟨h, h'⟩
  | error e => exact ⟨h, h'⟩

theorem Sat.of_forall (hE : ∀ e, E e) (hQ : ∀ a, Q a) : Sat x E Q := by
  cases x with
  | ok a => exact hQ a
  | error e => exact hE e

theorem ensures_bind (h : ∀ a, Ensures (f a) R) : Ensures (x >>= f) R :=
  sat_bind.mpr (.of_forall (fun _ => trivial) h)

theorem Sat.mono (h : Sat x E P) (hQ : ∀ a, P a → Q a) : Sat x E Q := by
  cases x with
  | ok a => exact hQ a h
  | error e => exact h

theorem Sat.bind (h : Sat x E P) (hf : ∀ a, P a → Sat (f a) E R) : Sat (x >>= f) E R :=
  sat_bind.mpr (h.mono hf)

theorem Sat.of_ok (h : Sat x E Q) (hx : x = .ok a) : Q a := by
  subst hx; exact h

theorem Sat.of_error (h : Sat x E Q) (hx : x = .error e) : E e := by
  subst hx; exact h

theorem Sat.exists_ok (h : Returns x Q) : ∃ a, x = .ok a ∧ Q a := by
  cases x with
  | ok a => exact ⟨a, rfl, h⟩
  | error e => exact h.elim

instance decidableOk [DecidablePred Q] : Decidable (∃ a, x = .ok a ∧ Q a) :=
  match x with
  | .ok a => decidable_of_iff (Q a) (by simp)
  | .error _ => isFalse (by simp)

/-- A transition system: initial states, the actions a state offers, and what an action does.
A step returns the next state and the events it shows to the outside. -/
structure System (σ α ε ω : Type*) where
  init : σ → Prop
  enabled : σ → α → Prop
  step : σ → α → Except ε (σ × List ω)

namespace System

variable (S : System σ α ε ω)

/-- `Run S P tr s`: some run of `S` that takes only actions with `P` ends in `s` and shows `tr`. -/
inductive Run (P : α → Prop) : List ω → σ → Prop
  | start {s : σ} : S.init s → Run P [] s
  | step {tr : List ω} {s s' : σ} {a : α} {out : List ω} : Run P tr s → P a → S.enabled s a →
      S.step s a = .ok (s', out) → Run P (tr ++ out) s'

/-- Some run of `S` that takes only actions with `P` ends in a step that stops with `e`. -/
def Fails (P : α → Prop) (e : ε) : Prop :=
  ∃ tr s a, S.Run P tr s ∧ P a ∧ S.enabled s a ∧ S.step s a = .error e

/-- The runs of `S` whose every step meets a condition on the state and the action. -/
def restrict (C : σ → α → Prop) : System σ α ε ω :=
  { S with enabled := fun s a => S.enabled s a ∧ C s a }

variable {S} {I : List ω → σ → Prop}

/-- A property of the initial states that every step keeps holds along every run. -/
theorem Run.invariant {P : α → Prop} (h0 : ∀ s, S.init s → I [] s)
    (hstep : ∀ tr s a, I tr s → P a → S.enabled s a → Sat (S.step s a) E fun r => I (tr ++ r.2) r.1)
    {tr : List ω} {s : σ} (h : S.Run P tr s) : I tr s := by
  induction h with
  | start hs => exact h0 _ hs
  | step _ ha he hr ih => exact (hstep _ _ _ ih ha he).of_ok hr

theorem Run.mono {P Q : α → Prop} (hPQ : ∀ a, P a → Q a) {tr : List ω} {s : σ} (h : S.Run P tr s) :
    S.Run Q tr s := by
  induction h with
  | start hs => exact .start hs
  | step _ ha he hr ih => exact ih.step (hPQ _ ha) he hr

/-- Under the same conditions, the runs end only in the errors the steps allow. -/
theorem Fails.allowed {P : α → Prop} (h0 : ∀ s, S.init s → I [] s)
    (hstep : ∀ tr s a, I tr s → P a → S.enabled s a → Sat (S.step s a) E fun r => I (tr ++ r.2) r.1)
    {e : ε} (h : S.Fails P e) : E e := by
  obtain ⟨tr, s, a, hr, ha, he, hs⟩ := h
  exact (hstep tr s a (hr.invariant h0 hstep) ha he).of_error hs

section Replay

variable (S) [∀ s, DecidablePred (S.enabled s)]

/-- Takes the given actions one after the other, as long as each is enabled. -/
def replay (s : σ) (tr : List ω) : List α → Option (Except ε (List ω × σ))
  | [] => some (.ok (tr, s))
  | a :: as =>
    if S.enabled s a then
      match S.step s a with
      | .ok (s', out) => replay s' (tr ++ out) as
      | .error e => some (.error e)
    else none

def stops [DecidableEq ε] (s : σ) (e : ε) (as : List α) : Bool :=
  match S.replay s [] as with
  | some (.error e') => decide (e' = e)
  | _ => false

/-- The actions end in a state with `Q`. -/
def reaches (s : σ) (Q : List ω → σ → Prop) [∀ tr, DecidablePred (Q tr)] (as : List α) : Bool :=
  match S.replay s [] as with
  | some (.ok (tr, s')) => decide (Q tr s')
  | _ => false

variable {S} {P : α → Prop} {tr : List ω} {s : σ}

theorem Run.replay (h : S.Run P tr s) {as : List α} (hP : ∀ a ∈ as, P a) :
    ∀ r, S.replay s tr as = some r → match r with
      | .ok (tr', s') => S.Run P tr' s'
      | .error e => S.Fails P e := by
  induction as generalizing s tr with
  | nil =>
    rintro r ⟨⟩
    exact h
  | cons a as ih =>
    intro r hr
    simp only [System.replay] at hr
    split at hr
    · next he =>
      split at hr
      · next hs => exact ih (h.step (hP a (by simp)) he hs) (fun b hb => hP b (by simp [hb])) r hr
      · next e hs =>
        obtain rfl := Option.some.inj hr
        exact ⟨tr, s, a, h, hP a (by simp), he, hs⟩
    · cases hr

theorem Fails.of_stops [DecidableEq ε] {e : ε} (h : S.Run P [] s) (as : List α)
    (hr : S.stops s e as = true := by decide +kernel)
    (hP : ∀ a ∈ as, P a := by first | exact fun _ _ => trivial | decide +kernel) :
    S.Fails P e := by
  unfold stops at hr
  split at hr
  · next e' he =>
    obtain rfl := of_decide_eq_true hr
    exact h.replay hP _ he
  · cases hr

theorem Run.of_reaches {Q : List ω → σ → Prop} [∀ tr, DecidablePred (Q tr)] (h : S.Run P [] s)
    (as : List α) (hr : S.reaches s Q as = true := by decide +kernel)
    (hP : ∀ a ∈ as, P a := by first | exact fun _ _ => trivial | decide +kernel) :
    ∃ tr s', S.Run P tr s' ∧ Q tr s' := by
  unfold reaches at hr
  split at hr
  · next tr s' he => exact ⟨tr, s', h.replay hP _ he, of_decide_eq_true hr⟩
  · cases hr

/-- A run that ends with `Q` shows what follows from `Q` along every run. -/
theorem Run.of_reaches_imp {Q R : List ω → σ → Prop} [∀ tr, DecidablePred (Q tr)] (h : S.Run P [] s)
    (as : List α) (hR : ∀ tr s', S.Run P tr s' → Q tr s' → R tr s')
    (hr : S.reaches s Q as = true := by decide +kernel)
    (hP : ∀ a ∈ as, P a := by first | exact fun _ _ => trivial | decide +kernel) :
    ∃ tr s', S.Run P tr s' ∧ R tr s' := by
  obtain ⟨tr, s', hrun, hQ⟩ := h.of_reaches as hr hP
  exact ⟨tr, s', hrun, hR tr s' hrun hQ⟩

end Replay

end System

end Outcome
