import Mathlib

/-!
# Support — Runs

Labelled transition systems: the states a run reaches, runs restricted to the steps a
predicate allows, and the two rules the invariants are proved with (`Reachable.induct`,
`Reachable.step`).  A machine given by a partial function runs lists of labels (`runs`), and
what it computes is reachable (`reachable_of_runs`, `exists_reachable`).  `answers` is such a run
with what the machine answers to each label.
-/

namespace Ubft

universe u v w

/-- A fallible computation in two parts. -/
theorem bind_eq_ok {ε : Type v} {α β : Type u} {x : Except ε α} {f : α → Except ε β} {b : β} :
    (x >>= f) = .ok b ↔ ∃ a, x = .ok a ∧ f a = .ok b := by
  cases x with
  | error e => exact ⟨(nomatch ·), fun ⟨_, h, _⟩ => nomatch h⟩
  | ok a =>
      refine ⟨fun h => ⟨a, rfl, h⟩, fun ⟨a', h, h'⟩ => ?_⟩
      cases h
      exact h'

theorem map_eq_ok {ε : Type v} {α β : Type u} {x : Except ε α} {f : α → β} {b : β} :
    x.map f = .ok b ↔ ∃ a, x = .ok a ∧ f a = b := by
  cases x with
  | error e => exact ⟨(nomatch ·), fun ⟨_, h, _⟩ => nomatch h⟩
  | ok a => exact ⟨fun h => ⟨a, rfl, Except.ok.inj h⟩, fun ⟨_, h, h'⟩ => by cases h; rw [← h']; rfl⟩

theorem mapError_eq_ok {ε ε' : Type v} {α : Type u} {g : ε → ε'} {x : Except ε α} {a : α} :
    x.mapError g = .ok a ↔ x = .ok a := by
  cases x with
  | error e => exact ⟨(nomatch ·), (nomatch ·)⟩
  | ok b => exact ⟨fun h => by cases h; rfl, fun h => by cases h; rfl⟩

/-- An error of the first part is passed on. -/
theorem bind_of_error {ε α β : Type u} {x : Except ε α} {f : α → Except ε β} {e : ε}
    (h : x = .error e) : (x >>= f) = .error e := by
  rw [h]
  rfl

theorem toOption_eq_some {ε : Type v} {α : Type u} {x : Except ε α} {a : α} :
    x.toOption = some a ↔ x = .ok a := by
  cases x with
  | error e => exact ⟨(nomatch ·), (nomatch ·)⟩
  | ok b => exact ⟨fun h => by cases h; rfl, fun h => by cases h; rfl⟩

variable {σ : Type u} {ι : Type v}

/-- The states reached from `init` by steps whose label and starting state satisfy `good`. -/
inductive Reachable (init : σ → Prop) (step : σ → ι → σ → Prop) (good : σ → ι → Prop) :
    σ → Prop where
  | init {s : σ} (h : init s) : Reachable init step good s
  | step {s s' : σ} {l : ι} (hr : Reachable init step good s) (hg : good s l)
      (hs : step s l s') : Reachable init step good s'

/-- No restriction on the steps. -/
def Always (_ : σ) (_ : ι) : Prop := True

namespace Reachable

variable {init : σ → Prop} {step : σ → ι → σ → Prop} {good good' : σ → ι → Prop}

/-- **Invariants.**  What holds initially and is kept by every good step from a reachable state
holds in every state reached. -/
theorem induct {P : σ → Prop} (h₀ : ∀ s, init s → P s)
    (h₁ : ∀ s l s', Reachable init step good s → P s → good s l → step s l s' → P s')
    {s : σ} (h : Reachable init step good s) : P s := by
  induction h with
  | init h => exact h₀ _ h
  | step hr hg hs ih => exact h₁ _ _ _ hr ih hg hs

/-- Fewer restrictions reach more states. -/
theorem mono (hg : ∀ s l, good s l → good' s l) {s : σ} (h : Reachable init step good s) :
    Reachable init step good' s := by
  induction h with
  | init h => exact .init h
  | step _ h hs ih => exact .step ih (hg _ _ h) hs

/-- Fewer restrictions still: none. -/
theorem always {s : σ} (h : Reachable init step good s) :
    Reachable init step (Always (ι := ι)) s :=
  h.mono fun _ _ _ => trivial

end Reachable

/-- The state after a list of labels, when every one of them is possible. -/
def runs (next : σ → ι → Option σ) : σ → List ι → Option σ
  | s, [] => some s
  | s, l :: ls => (next s l).bind (fun s' => runs next s' ls)

/-- What a machine computes from a reachable state is reachable. -/
theorem reachable_of_runs {init : σ → Prop} {step : σ → ι → σ → Prop} {good : σ → ι → Prop}
    {next : σ → ι → Option σ} (hn : ∀ s l s', next s l = some s' → good s l ∧ step s l s')
    {s₀ s : σ} {ls : List ι} (h₀ : Reachable init step good s₀) (h : runs next s₀ ls = some s) :
    Reachable init step good s := by
  induction ls generalizing s₀ with
  | nil => cases h; exact h₀
  | cons l ls ih =>
      obtain ⟨s₁, h₁, h₂⟩ := Option.bind_eq_some_iff.mp h
      obtain ⟨hg, hs⟩ := hn _ _ _ h₁
      exact ih (.step h₀ hg hs) h₂

/-- The good steps of a fallible machine. -/
def guarded {ε : Type} (next : σ → ι → Except ε σ) (good : σ → ι → Prop)
    [∀ s l, Decidable (good s l)] (s : σ) (l : ι) : Option σ :=
  if good s l then (next s l).toOption else none

/-- The state a run ends in, by what can be seen of it. -/
theorem exists_reachable {ε : Type} {init : σ → Prop} {next : σ → ι → Except ε σ}
    {good : σ → ι → Prop} [∀ s l, Decidable (good s l)] {see : σ → Bool} (s₀ : σ) (h₀ : init s₀)
    (ls : List ι) (h : (runs (guarded next good) s₀ ls).any see = true) :
    ∃ s, Reachable init (fun s l s' => next s l = .ok s') good s ∧ see s = true := by
  obtain ⟨s, hs, hsee⟩ := (Option.any_eq_true ..).mp h
  refine ⟨s, reachable_of_runs (fun s l s' hn => ?_) (.init h₀) hs, hsee⟩
  unfold guarded at hn
  split at hn
  · next hg => exact ⟨hg, toOption_eq_some.mp hn⟩
  · cases hn

/-- The state after a list of labels, and what the machine answered to each. -/
def answers {ε : Type v} {α σ : Type u} {ι : Type w} (next : σ → ι → Except ε (σ × α)) :
    σ → List ι → Except ε (σ × List α)
  | s, [] => .ok (s, [])
  | s, l :: ls => do
    let (s, a) ← next s l
    let (s, as) ← answers next s ls
    return (s, a :: as)

/-- The first label, then the others. -/
theorem answers_cons {ε : Type v} {α σ : Type u} {ι : Type w} {next : σ → ι → Except ε (σ × α)}
    {s s' : σ} {l : ι} {ls : List ι} {as : List α} :
    answers next s (l :: ls) = .ok (s', as) ↔
      ∃ s₁ a as', next s l = .ok (s₁, a) ∧ answers next s₁ ls = .ok (s', as') ∧
        as = a :: as' := by
  constructor
  · intro h
    obtain ⟨⟨s₁, a⟩, h₁, h⟩ := bind_eq_ok.mp h
    obtain ⟨⟨s₂, as'⟩, h₂, h⟩ := bind_eq_ok.mp h
    cases h
    exact ⟨s₁, a, as', h₁, h₂, rfl⟩
  · rintro ⟨s₁, a, as', h₁, h₂, rfl⟩
    exact bind_eq_ok.mpr ⟨_, h₁, bind_eq_ok.mpr ⟨_, h₂, rfl⟩⟩

/-- What decreases with every step that counts until the goal is met meets it, however the steps
are ordered. -/
theorem exists_prefix_of_rank {next : σ → ι → Option σ} {counts : ι → Bool} {P : Nat → σ → Prop}
    {goal : σ → Prop}
    (h : ∀ n s l s', P n s → next s l = some s' →
      goal s ∨ ∃ n', (counts l = true → n' < n) ∧ n' ≤ n ∧ P n' s')
    {n : Nat} {s s' : σ} {ls : List ι} (hi : P n s) (hr : runs next s ls = some s')
    (hn : n < ls.countP counts) :
    ∃ ls₁ ls₂ s₁, ls = ls₁ ++ ls₂ ∧ runs next s ls₁ = some s₁ ∧ goal s₁ := by
  induction ls generalizing n s with
  | nil => exact absurd hn (Nat.not_lt_zero n)
  | cons l ls ih =>
      obtain ⟨s₁, h₁, h₂⟩ := Option.bind_eq_some_iff.mp hr
      rcases h n s l s₁ hi h₁ with hg | ⟨n', hlt, hle, hi'⟩
      · exact ⟨[], l :: ls, s, rfl, rfl, hg⟩
      · have hn' : n' < ls.countP counts := by
          cases hc : counts l with
          | true =>
              rw [List.countP_cons_of_pos hc] at hn
              exact Nat.lt_of_lt_of_le (hlt hc) (Nat.le_of_lt_succ hn)
          | false =>
              rw [List.countP_cons_of_neg (Bool.eq_false_iff.mp hc)] at hn
              exact Nat.lt_of_le_of_lt hle hn
        obtain ⟨ls₁, ls₂, s₂, rfl, hr₂, hg⟩ := ih hi' h₂ hn'
        exact ⟨l :: ls₁, ls₂, s₂, rfl, Option.bind_eq_some_iff.mpr ⟨s₁, h₁, hr₂⟩, hg⟩

/-- What decreases until the goal is met meets it. -/
theorem exists_iterate {f : σ → σ} {inv : Nat → σ → Prop} {goal : σ → Prop}
    (h : ∀ n s, inv n s → goal s ∨ ∃ m < n, inv m (f s)) {n : Nat} {s : σ} (hs : inv n s) :
    ∃ k, goal (f^[k] s) := by
  induction n using Nat.strongRecOn generalizing s with
  | ind n ih =>
      rcases h n s hs with hg | ⟨m, hm, hs⟩
      · exact ⟨0, hg⟩
      · obtain ⟨k, hk⟩ := ih m hm hs
        exact ⟨k + 1, hk⟩

end Ubft
