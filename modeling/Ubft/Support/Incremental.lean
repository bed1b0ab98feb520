import Mathlib

/-!
# Support — Incremental

Parsers that are fed a stream in chunks and asked for what they parsed after each one, until there
is nothing more.  When what is parsed does not change with what comes after it (`parse_feed`), and a
parser that stops has lost nothing (`parse_feed_none`), it does not matter where the stream is cut
(`run_eq`).
-/

namespace Ubft

universe u v w

/-- `rank` bounds how much can be parsed before more is fed. -/
structure Incremental (α : Type u) (σ : Type v) (ω : Type w) where
  parse : σ → Option ω × σ
  feed : σ → List α → σ
  rank : σ → Nat
  rank_lt : ∀ {s s' o}, parse s = (some o, s') → rank s' < rank s
  feed_nil : ∀ s, feed s [] = s
  feed_append : ∀ s as bs, feed s (as ++ bs) = feed (feed s as) bs
  parse_feed : ∀ {s s' o} as, parse s = (some o, s') → parse (feed s as) = (some o, feed s' as)
  parse_feed_none : ∀ {s s'} as, parse s = (none, s') → parse (feed s as) = parse (feed s' as)

namespace Incremental

variable {α : Type u} {σ : Type v} {ω : Type w} (p : Incremental α σ ω)

/-- Parsing until there is nothing more. -/
def drain (s : σ) : List ω × σ :=
  match _h : p.parse s with
  | (none, s') => ([], s')
  | (some o, s') => (o :: (drain s').1, (drain s').2)
termination_by p.rank s
decreasing_by all_goals exact p.rank_lt _h

/-- A chunk after the other. -/
def run (s : σ) : List (List α) → List ω × σ
  | [] => ([], s)
  | c :: cs =>
    ((p.drain (p.feed s c)).1 ++ (run (p.drain (p.feed s c)).2 cs).1,
      (run (p.drain (p.feed s c)).2 cs).2)

variable {p} {s s' t : σ} {o : ω}

theorem drain_of_none (h : p.parse s = (none, s')) : p.drain s = ([], s') := by
  rw [drain]
  split
  · next heq =>
      rw [h] at heq
      cases heq
      rfl
  · next heq =>
      rw [h] at heq
      cases heq

/-- The first object, then the others. -/
theorem drain_of_some (h : p.parse s = (some o, s')) :
    p.drain s = (o :: (p.drain s').1, (p.drain s').2) := by
  rw [drain]
  split
  · next heq =>
      rw [h] at heq
      cases heq
  · next heq =>
      rw [h] at heq
      cases heq
      rfl

/-- What is drained depends on what is parsed alone. -/
theorem drain_congr (h : p.parse s = p.parse t) : p.drain s = p.drain t := by
  obtain ⟨o, s', hs⟩ : ∃ o s', p.parse s = (o, s') := ⟨_, _, rfl⟩
  cases o with
  | none => rw [drain_of_none hs, drain_of_none (h.symm.trans hs)]
  | some o => rw [drain_of_some hs, drain_of_some (h.symm.trans hs)]

/-- A parser that stopped has nothing more to parse. -/
theorem parse_of_none (h : p.parse s = (none, s')) : p.parse s' = (none, s') := by
  have hsame := p.parse_feed_none [] h
  rw [p.feed_nil, p.feed_nil] at hsame
  exact hsame.symm.trans h

theorem parse_drain (s : σ) : p.parse (p.drain s).2 = (none, (p.drain s).2) := by
  induction h : p.rank s using Nat.strongRecOn generalizing s with
  | ind n ih =>
      obtain ⟨o, s', hs⟩ : ∃ o s', p.parse s = (o, s') := ⟨_, _, rfl⟩
      cases o with
      | none =>
          rw [drain_of_none hs]
          exact parse_of_none hs
      | some o =>
          rw [drain_of_some hs]
          exact ih _ (h ▸ p.rank_lt hs) s' rfl

/-- **More is fed** before or after what was there is parsed. -/
theorem drain_feed (s : σ) (as : List α) :
    p.drain (p.feed s as) = ((p.drain s).1 ++ (p.drain (p.feed (p.drain s).2 as)).1,
      (p.drain (p.feed (p.drain s).2 as)).2) := by
  induction h : p.rank s using Nat.strongRecOn generalizing s with
  | ind n ih =>
      obtain ⟨o, s', hs⟩ : ∃ o s', p.parse s = (o, s') := ⟨_, _, rfl⟩
      cases o with
      | none =>
          rw [drain_of_none hs, drain_congr (p.parse_feed_none as hs), List.nil_append]
      | some o =>
          rw [drain_of_some hs, drain_of_some (p.parse_feed as hs),
            ih _ (h ▸ p.rank_lt hs) s' rfl, List.cons_append]

/-- **Chunks do not matter**: the stream may as well be fed at once. -/
theorem run_eq (hs : p.parse s = (none, s)) (cs : List (List α)) :
    p.run s cs = p.drain (p.feed s cs.flatten) := by
  induction cs generalizing s with
  | nil =>
      rw [run, List.flatten_nil, p.feed_nil]
      exact (drain_of_none hs).symm
  | cons c cs ih =>
      rw [run, List.flatten_cons, p.feed_append, drain_feed (p.feed s c), ih (parse_drain _)]

/-- From any parser that has nothing to parse yet. -/
theorem run_fst (hs : (p.parse s).1 = none) (cs : List (List α)) :
    (p.run s cs).1 = (p.drain (p.feed s cs.flatten)).1 := by
  cases cs with
  | nil =>
      have hnone : p.parse s = (none, (p.parse s).2) := Prod.ext hs rfl
      rw [run, List.flatten_nil, p.feed_nil, drain_of_none hnone]
  | cons c cs =>
      rw [run, List.flatten_cons, p.feed_append, drain_feed (p.feed s c), run_eq (parse_drain _)]

end Incremental

end Ubft
