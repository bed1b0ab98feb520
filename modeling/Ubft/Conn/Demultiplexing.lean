import Ubft.Conn.ContextedPoller

/-!
# Conn — the shared completion queue

Contexts that poll one completion queue, one call at a time.  `stream` is the history of the
completions, `polled` that of the contexts that polled them, and `handed` that of the entries that
the calls left in the vectors of their callers.

Of what a context polled, each other context was handed the beginning and has the rest in its queue,
unless a queue had no room: the call that finds it so returns and drops what it did not distribute
yet (`conserves_completions`).
-/

namespace Ubft.Conn

open PollerManager (Wired)

/-- An entry in the vector of `context`, which polled it or got it from `via`. -/
structure Handed (Kind : Type) where
  context : Kind
  via : Kind
  wc : WC
  deriving DecidableEq, Repr

/-- The contexts and the queue they share. -/
structure State (Kind : Type) where
  manager : PollerManager Kind
  queues : Queues Kind := fun _ => .make QueueDepth (Nat.succ_pos _)
  cq : List IbvWc := []
  stream : List WC := []
  polled : List (Kind × WC) := []
  handed : List (Handed Kind) := []

/-- A work request completes, or a context calls its poller with a vector.  `count` is how many
completions the shared queue gives when it is polled, nothing if that fails. -/
inductive Event (Kind : Type) where
  | complete (wc : IbvWc)
  | call (kind : Kind) (entries : List IbvWc) (count : Option Nat)
  deriving DecidableEq

section

variable {Kind : Type} [LinearOrder Kind]

/-- The entries of the vector after a call. -/
def Call.handed (c : Call Kind) (kind : Kind) : List (Handed Kind) :=
  (c.entries.zip (c.sources ++ List.replicate (c.entries.length - c.sources.length) kind)).map
    fun e => ⟨kind, e.2, e.1.toWC⟩

namespace State

/-- What an event does. -/
def exec (unpackKind : Nat → Kind) (s : State Kind) :
    Event Kind → Except (PollError Kind) (State Kind)
  | .complete wc => .ok { s with
      cq := s.cq ++ [wc]
      stream := s.stream ++ [wc.toWC] }
  | .call kind entries count => do
    let (p, manager) ← s.manager.getPoller kind
    let poll := count.map s.cq.take
    let (c, _) ← p.call unpackKind entries s.queues poll
    return { s with
      manager
      queues := c.queues
      cq := s.cq.drop (count.getD 0)
      polled := s.polled ++ (poll.getD []).map fun w => (kind, w.toWC)
      handed := s.handed ++ c.handed kind }

/-- Completions are of registered kinds, and a poll gives at most what is requested and there. -/
def Allowed (unpackKind : Nat → Kind) (s : State Kind) : Event Kind → Prop
  | .complete wc => unpackKind wc.wrId ∈ s.manager.contexts
  | .call kind entries count => kind ∈ s.manager.contexts ∧ ∀ n ∈ count,
      n ≤ requested (s.manager.newPoller kind) entries s.queues ∧ n ≤ s.cq.length

/-- A manager after its registrations. -/
def Init (s : State Kind) : Prop :=
  ∃ (kinds : List Kind) (m m' : PollerManager Kind) (n : Nat),
    kinds.foldlM PollerManager.registerContext {} = .ok m ∧ m.endRegistrations n = some m' ∧
      s = { manager := m' }

/-- The step relation: an event that may happen. -/
def Step (unpackKind : Nat → Kind) (s : State Kind) (e : Event Kind) (s' : State Kind) : Prop :=
  s.Allowed unpackKind e ∧ s.exec unpackKind e = .ok s'

/-- What `p` polled for `k`. -/
def polledFor (unpackKind : Nat → Kind) (s : State Kind) (p k : Kind) : List WC :=
  ((s.polled.filter fun e => e.1 = p).map Prod.snd).filter fun wc => unpackKind wc.wrId = k

/-- What `k` was handed that `p` polled. -/
def handedVia (s : State Kind) (p k : Kind) : List WC :=
  (s.handed.filter fun h => h.via = p ∧ h.context = k).map Handed.wc

/-- Every completion was polled once at most, and then returned to the context of its kind, in
order, or is in its queue. -/
structure Conserved (unpackKind : Nat → Kind) (s : State Kind) : Prop where
  stream : s.stream = s.polled.map Prod.snd ++ s.cq.map IbvWc.toWC
  returned : ∀ p ∈ s.manager.contexts, ∀ k ∈ s.manager.contexts,
    s.polledFor unpackKind p k = s.handedVia p k ++ (s.queues (p, k)).toList
  kinds : ∀ h ∈ s.handed, h.context = unpackKind h.wc.wrId ∧ h.via ∈ s.manager.contexts

/-- No call polls more completions of another kind than the queue to it has room for. -/
def Careful (unpackKind : Nat → Kind) (s : State Kind) : Event Kind → Prop
  | .complete _ => True
  | .call kind _ count => ∀ n ∈ count, ∀ k ∈ s.manager.contexts, k ≠ kind →
      ((s.cq.take n).filter fun w => unpackKind w.wrId = k).length ≤ (s.queues (kind, k)).room

/-- A vector with room for what the others forwarded takes all of it. -/
def Served (s s' : State Kind) : Event Kind → Prop
  | .complete _ => True
  | .call kind entries _ =>
      (((s.manager.contexts.filter (· ≠ kind)).map fun p =>
        (s.queues (p, kind)).toList.length).sum ≤ entries.length) →
          ∀ p ∈ s.manager.contexts, (s'.queues (p, kind)).toList = []

/-! ### What holds in every state -/

/-- What holds whatever was dropped. -/
structure Sound (unpackKind : Nat → Kind) (s : State Kind) : Prop where
  wired : Wired s.manager
  unused : ∀ k, (s.queues (k, k)).toList = []
  kinds : ∀ w ∈ s.cq, unpackKind w.wrId ∈ s.manager.contexts
  stream : s.stream = s.polled.map Prod.snd ++ s.cq.map IbvWc.toWC

variable {unpackKind : Nat → Kind} {s s' : State Kind} {k : Kind} {entries : List IbvWc}
  {count : Option Nat} {c : Call Kind} {taken : List (Kind × WC)} {ws done rest : List IbvWc}

theorem sound_init (h : Init s) : Sound unpackKind s ∧ s.Conserved unpackKind := by
  obtain ⟨kinds, m, m', n, hm, he, rfl⟩ := h
  have hregister : ∀ (kinds : List Kind) (m₀ : PollerManager Kind), m₀.contexts.Nodup →
      m₀.done = false → m₀.pollers = [] →
      kinds.foldlM PollerManager.registerContext m₀ = .ok m →
      m.contexts.Nodup ∧ m.done = false ∧ m.pollers = [] := by
    intro kinds
    induction kinds with
    | nil =>
        intro m₀ hnodup hdone hpollers hm
        cases hm
        exact ⟨hnodup, hdone, hpollers⟩
    | cons kind kinds ih =>
        intro m₀ hnodup hdone hpollers hm
        obtain ⟨m₁, h₁, hm⟩ := bind_eq_ok.mp hm
        obtain ⟨hnodup₁, -, hdone₁, hpollers₁⟩ := PollerManager.nodup_registerContext hnodup h₁
        exact ih m₁ hnodup₁ (hdone₁.trans hdone) (hpollers₁.trans hpollers) hm
  obtain ⟨hnodup, hdone, hpollers⟩ := hregister kinds {} .nil rfl rfl hm
  obtain ⟨hwired, -⟩ := PollerManager.wired_endRegistrations hnodup hdone hpollers he
  refine ⟨⟨hwired, fun _ => ReaderWriterQueue.toList_make _ _, nofun, rfl⟩,
    ⟨rfl, fun _ _ _ _ => ?_, nofun⟩⟩
  exact (ReaderWriterQueue.toList_make _ _).symm

/-- **What a call does**, on the state. -/
theorem exec_call (h : Sound unpackKind s) (ha : s.Allowed unpackKind (.call k entries count)) :
    ∃ manager c taken done rest, s.exec unpackKind (.call k entries count) = .ok
        { s with
          manager
          queues := c.queues
          cq := s.cq.drop (count.getD 0)
          polled := s.polled ++ (s.cq.take (count.getD 0)).map fun w => (k, w.toWC)
          handed := s.handed ++ c.handed k } ∧
      Wired manager ∧ manager.contexts = s.manager.contexts ∧
      Called unpackKind s.manager.contexts k entries s.queues c taken
        (s.cq.take (count.getD 0)) done rest := by
  obtain ⟨hk, hcount⟩ := ha
  have hpoll : (count.map s.cq.take).getD [] = s.cq.take (count.getD 0) := by
    cases count <;> rfl
  obtain ⟨manager, hget, hwired, hcontexts⟩ := h.wired.getPoller hk
  obtain ⟨c, ok, taken, done, rest, hcall, hcalled⟩ := call_spec h.wired hk entries s.queues
    (count.map s.cq.take) (fun ws hws w hw => by
      obtain ⟨n, -, rfl⟩ := Option.map_eq_some_iff.mp hws
      exact h.kinds w (List.mem_of_mem_take hw))
    (fun ws hws => by
      obtain ⟨n, hn, rfl⟩ := Option.map_eq_some_iff.mp hws
      exact (List.length_take_le ..).trans (hcount n hn).1)
  rw [hpoll] at hcalled
  refine ⟨manager, c, taken, done, rest, ?_, hwired, hcontexts, hcalled⟩
  refine bind_eq_ok.mpr ⟨_, hget, bind_eq_ok.mpr ⟨_, hcall, ?_⟩⟩
  rw [hpoll]
  rfl

/-! ### What is handed -/

omit [LinearOrder Kind] in
/-- The entries of a call that distributed all that it polled. -/
theorem handed_eq {kept : List WC}
    (hentries : c.entries.map IbvWc.toWC = taken.map Prod.snd ++ kept)
    (hsources : c.sources = taken.map Prod.fst) :
    c.handed k = (taken.map fun e => ⟨k, e.1, e.2⟩) ++ kept.map fun wc => ⟨k, k, wc⟩ := by
  have hlength := congrArg List.length hentries
  rw [List.length_append, List.length_map, List.length_map] at hlength
  have hzip : c.handed k = ((c.entries.map IbvWc.toWC).zip
      (c.sources ++ List.replicate (c.entries.length - c.sources.length) k)).map
        fun e => ⟨k, e.2, e.1⟩ := by
    rw [Call.handed, List.zip_map_left, List.map_map]
    rfl
  have hkept : c.entries.length - c.sources.length = kept.length := by
    rw [hsources, List.length_map]
    omega
  have hpairs : (kept.zip (List.replicate kept.length k)).map
      (fun e => (⟨k, e.2, e.1⟩ : Handed Kind)) = kept.map fun wc => ⟨k, k, wc⟩ := by
    clear hentries hlength hkept
    induction kept with
    | nil => rfl
    | cons wc kept ih => exact congrArg (_ :: ·) ih
  rw [hzip, hentries, hkept, hsources,
    List.zip_append (by rw [List.length_map, List.length_map]), List.map_append, hpairs,
    List.zip_map', List.map_map]
  rfl

omit [LinearOrder Kind] in
/-- Whatever the vector holds, it is the context that called that was handed it. -/
theorem context_of_mem_handed {h : Handed Kind} (hmem : h ∈ c.handed k) : h.context = k := by
  obtain ⟨e, -, rfl⟩ := List.mem_map.mp hmem
  rfl

/-- What the others forwarded is handed via them, and to the context that called. -/
theorem via_taken (taken : List (Kind × WC)) (p j : Kind) :
    ((taken.map fun e => (⟨k, e.1, e.2⟩ : Handed Kind)).filter
      fun h => h.via = p ∧ h.context = j).map Handed.wc =
        if k = j then (taken.filter fun e => e.1 = p).map Prod.snd else [] := by
  rw [List.filter_map, List.map_map]
  split
  · next heq =>
      subst heq
      simp only [Function.comp_def, and_true]
  · next hne => simp [Function.comp_def, hne]

/-- What a context keeps is handed via itself. -/
theorem via_kept (kept : List WC) (p j : Kind) :
    ((kept.map fun wc => (⟨k, k, wc⟩ : Handed Kind)).filter
      fun h => h.via = p ∧ h.context = j).map Handed.wc =
        if k = p ∧ k = j then kept else [] := by
  rw [List.filter_map, List.map_map]
  split
  · next heq =>
      obtain ⟨rfl, rfl⟩ := heq
      simp [Function.comp_def]
  · next hne => simp [Function.comp_def, hne]

/-- What `p` polled for `j`, once `k` polled `ws`. -/
theorem polled_append (unpackKind : Nat → Kind) (l : List (Kind × WC)) (ws : List IbvWc)
    (p j : Kind) :
    (((l ++ ws.map fun w => (k, w.toWC)).filter fun e => e.1 = p).map Prod.snd).filter
        (fun wc => unpackKind wc.wrId = j) =
      ((l.filter fun e => e.1 = p).map Prod.snd).filter (fun wc => unpackKind wc.wrId = j) ++
        if k = p then (ws.filter fun w => unpackKind w.wrId = j).map IbvWc.toWC else [] := by
  rw [List.filter_append, List.map_append, List.filter_append]
  congr 1
  split
  · next heq =>
      subst heq
      simp [List.filter_map, Function.comp_def]
  · next hne => simp [List.filter_map, Function.comp_def, hne]

/-! ### One call -/

/-- A call that distributes all that it polled loses nothing. -/
theorem conserved_called (h : Sound unpackKind s) (hc : s.Conserved unpackKind)
    (hk : k ∈ s.manager.contexts) {manager : PollerManager Kind} {cq : List IbvWc}
    {stream : List WC} (hcontexts : manager.contexts = s.manager.contexts)
    (hcalled : Called unpackKind s.manager.contexts k entries s.queues c taken ws done [])
    (hentries : c.entries.map IbvWc.toWC = taken.map Prod.snd ++
      (done.filter fun w => unpackKind w.wrId = k).map IbvWc.toWC)
    (hstream : stream = (s.polled ++ ws.map fun w => (k, w.toWC)).map Prod.snd ++
      cq.map IbvWc.toWC) :
    Conserved unpackKind
      { manager, queues := c.queues, cq, stream
        polled := s.polled ++ ws.map fun w => (k, w.toWC)
        handed := s.handed ++ c.handed k } := by
  obtain rfl : ws = done := hcalled.split.trans (List.append_nil _)
  have hhanded := handed_eq (k := k) hentries hcalled.sources
  -- what is in a queue is for the context that it goes to
  have hqueue : ∀ p ∈ s.manager.contexts, ∀ wc ∈ (s.queues (p, k)).toList,
      unpackKind wc.wrId = k := by
    intro p hp wc hwc
    have hmem : wc ∈ s.polledFor unpackKind p k := by
      rw [hc.returned p hp k hk]
      exact List.mem_append_right _ hwc
    exact of_decide_eq_true (List.mem_filter.mp hmem).2
  refine ⟨hstream, fun p hp j hj => ?_, fun e he => ?_⟩
  · have hold := hc.returned p (hcontexts ▸ hp) j (hcontexts ▸ hj)
    unfold polledFor handedVia at hold ⊢
    rw [polled_append, hhanded, List.filter_append, List.filter_append, List.map_append,
      List.map_append, via_taken, via_kept, hold]
    dsimp only
    have hp : p ∈ s.manager.contexts := hcontexts ▸ hp
    by_cases hkj : k = j
    · subst hkj
      by_cases hkp : k = p
      · -- its own completions: nobody forwards to itself
        subst hkp
        have hnone : taken.filter (fun e => e.1 = k) = [] :=
          List.filter_eq_nil_iff.mpr fun e he heq =>
            (hcalled.origin e he).2 (of_decide_eq_true heq)
        rw [if_pos rfl, if_pos rfl, if_pos ⟨rfl, rfl⟩, hnone, hcalled.others k k (.inl rfl),
          h.unused k]
        simp
      · rw [if_neg hkp, if_pos rfl, if_neg fun heq => hkp heq.1,
          hcalled.taken p hp fun heq => hkp heq.symm]
        simp
    · by_cases hkp : k = p
      · subst hkp
        rw [if_pos rfl, if_neg hkj, if_neg fun heq => hkj heq.2,
          hcalled.forwarded j fun heq => hkj heq.symm]
        simp
      · rw [if_neg hkp, if_neg hkj, if_neg fun heq => hkj heq.2,
          hcalled.others p j (.inr ⟨fun heq => hkp heq.symm, fun heq => hkj heq.symm⟩)]
        simp
  · dsimp only at he ⊢
    rw [hcontexts]
    rcases List.mem_append.mp he with he | he
    · exact hc.kinds e he
    · rw [hhanded] at he
      rcases List.mem_append.mp he with he | he
      · obtain ⟨t, ht, rfl⟩ := List.mem_map.mp he
        obtain ⟨hvia, hne⟩ := hcalled.origin t ht
        refine ⟨(hqueue t.1 hvia t.2 ?_).symm, hvia⟩
        rw [hcalled.taken t.1 hvia hne]
        exact List.mem_append_left _
          (List.mem_map_of_mem (List.mem_filter.mpr ⟨ht, decide_eq_true rfl⟩))
      · obtain ⟨wc, hwc, rfl⟩ := List.mem_map.mp he
        obtain ⟨w, hw, rfl⟩ := List.mem_map.mp hwc
        exact ⟨(of_decide_eq_true (List.mem_filter.mp hw).2 : unpackKind w.wrId = k).symm, hk⟩

/-- A call that finds a queue without room loses a completion. -/
theorem not_conserved_full (hc : s.Conserved unpackKind) (hk : k ∈ s.manager.contexts)
    {manager : PollerManager Kind} {cq : List IbvWc} {stream : List WC}
    (hcontexts : manager.contexts = s.manager.contexts)
    (hcalled : Called unpackKind s.manager.contexts k entries s.queues c taken ws done rest)
    {w : IbvWc} {rest' : List IbvWc} (hrest : rest = w :: rest') (hne : unpackKind w.wrId ≠ k)
    (hw : unpackKind w.wrId ∈ s.manager.contexts) :
    ¬ Conserved unpackKind
      { manager, queues := c.queues, cq, stream
        polled := s.polled ++ ws.map fun w => (k, w.toWC)
        handed := s.handed ++ c.handed k } := by
  intro hc'
  have hold := congrArg List.length (hc.returned k hk _ hw)
  have hnew := congrArg List.length (hc'.returned k (hcontexts ▸ hk) _ (hcontexts ▸ hw))
  -- nothing was handed to the context of the completion, and it is not in its queue
  have hnone : (c.handed k).filter
      (fun h => h.via = k ∧ h.context = unpackKind w.wrId) = [] :=
    List.filter_eq_nil_iff.mpr fun h hmem heq =>
      hne ((of_decide_eq_true heq).2.symm.trans (context_of_mem_handed hmem))
  unfold polledFor handedVia at hold hnew
  rw [polled_append, if_pos rfl, List.filter_append, hnone, List.append_nil] at hnew
  dsimp only at hnew
  rw [hcalled.forwarded _ hne, hcalled.split, hrest, List.filter_append, List.filter_cons,
    if_pos (decide_eq_true rfl)] at hnew
  simp only [List.length_append, List.length_map, List.length_cons] at hold hnew
  omega

theorem sound_exec (h : Sound unpackKind s) {e : Event Kind} (ha : s.Allowed unpackKind e)
    (hs : s.exec unpackKind e = .ok s') :
    Sound unpackKind s' ∧ s'.manager.contexts = s.manager.contexts := by
  cases e with
  | complete wc =>
      cases hs
      refine ⟨⟨h.wired, h.unused, fun w hw => ?_, ?_⟩, rfl⟩
      · rcases List.mem_append.mp hw with hw | hw
        · exact h.kinds w hw
        · exact List.mem_singleton.mp hw ▸ ha
      · rw [h.stream, List.map_append, List.append_assoc]
        rfl
  | call k entries count =>
      obtain ⟨manager, c, taken, done, rest, hexec, hwired, hcontexts, hcalled⟩ := exec_call h ha
      rw [hexec] at hs
      cases hs
      refine ⟨⟨hwired, fun j => ?_, fun w hw => ?_, ?_⟩, hcontexts⟩
      · exact (congrArg _ (hcalled.others j j (.inl rfl))).trans (h.unused j)
      · rw [hcontexts]
        exact h.kinds w (List.mem_of_mem_drop hw)
      · dsimp only
        rw [h.stream, List.map_append, List.map_map, List.append_assoc]
        refine congrArg _ ?_
        conv_lhs => rw [← List.take_append_drop (count.getD 0) s.cq]
        rw [List.map_append]
        rfl

/-- **One event.**  It is possible, and keeps all completions exactly when it is careful. -/
theorem exec_iff (h : Sound unpackKind s) (hc : s.Conserved unpackKind) {e : Event Kind}
    (ha : s.Allowed unpackKind e) :
    ∃ s', s.exec unpackKind e = .ok s' ∧
      (s'.Conserved unpackKind ↔ s.Careful unpackKind e) ∧ s.Served s' e := by
  cases e with
  | complete wc =>
      refine ⟨_, rfl, iff_of_true ⟨?_, hc.returned, hc.kinds⟩ trivial, trivial⟩
      exact ((sound_exec (e := .complete wc) h ha rfl).1).stream
  | call k entries count =>
      obtain ⟨manager, c, taken, done, rest, hexec, hwired, hcontexts, hcalled⟩ := exec_call h ha
      have hk := ha.1
      have hstream := ((sound_exec h ha hexec).1).stream
      refine ⟨_, hexec, ?_, fun hsum p hp => ?_⟩
      · -- the careful calls are those that distribute all that they polled
        rcases hcalled.outcome with ⟨rfl, hentries⟩ | ⟨w, rest', hrest, hne, hfull⟩
        · refine iff_of_true (conserved_called h hc hk hcontexts hcalled hentries hstream) ?_
          intro n hn j hj hjk
          have hws : s.cq.take (count.getD 0) = done := hcalled.split.trans (List.append_nil _)
          rw [Option.mem_def.mp hn, Option.getD_some] at hws
          rw [hcalled.room j hjk, hws]
          exact Nat.le_add_left ..
        · have hmem : w ∈ s.cq.take (count.getD 0) := by
            rw [hcalled.split, hrest]
            exact List.mem_append_right _ List.mem_cons_self
          have hw := h.kinds w (List.mem_of_mem_take hmem)
          refine iff_of_false (not_conserved_full hc hk hcontexts hcalled hrest hne hw) ?_
          intro hcareful
          cases count with
          | none => cases hmem
          | some n =>
              have hroom := hcareful n rfl _ hw hne
              have hsplit : s.cq.take n = done ++ rest := hcalled.split
              rw [hcalled.room _ hne, hfull, hsplit, hrest, List.filter_append, List.filter_cons,
                if_pos (decide_eq_true rfl)] at hroom
              simp only [List.length_append, List.length_cons] at hroom
              omega
      · by_cases hpk : p = k
        · subst hpk
          exact (congrArg _ (hcalled.others p p (.inl rfl))).trans (h.unused p)
        · exact hcalled.drained hsum p hp hpk

/-! ### Runs -/

theorem sound_of_reachable {good : State Kind → Event Kind → Prop}
    (h : Reachable Init (Step unpackKind) good s) : Sound unpackKind s := by
  refine Reachable.induct (P := Sound unpackKind) (fun s hs => (sound_init hs).1) ?_ h
  rintro s e s' - hsound - ⟨ha, hs⟩
  exact (sound_exec hsound ha hs).1

/-- In every run in which no queue is full. -/
theorem conserved_of_careful
    (h : Reachable Init (Step unpackKind) (Careful unpackKind) s) : s.Conserved unpackKind := by
  refine Reachable.induct (P := Conserved unpackKind) (fun s hs => (sound_init hs).2) ?_ h
  rintro s e s' hr hc hg ⟨ha, hs⟩
  obtain ⟨s₁, hs₁, hiff, -⟩ := exec_iff (sound_of_reachable hr) hc ha
  rw [hs] at hs₁
  cases hs₁
  exact hiff.mpr hg

end State

/-- **The shared completion queue.**  As long as the queues have room for what is forwarded to them
every completion is polled once and returned to the context of its kind, in order, or waits in its
queue, until a call with room for it.  The first call that finds a queue without room loses a
completion. -/
theorem conserves_completions {unpackKind : Nat → Kind} {s : State Kind}
    (h : Reachable State.Init (State.Step unpackKind) (State.Careful unpackKind) s) :
    s.Conserved unpackKind ∧ ∀ e, s.Allowed unpackKind e → ∃ s', s.exec unpackKind e = .ok s' ∧
      (s'.Conserved unpackKind ↔ s.Careful unpackKind e) ∧ s.Served s' e :=
  ⟨State.conserved_of_careful h, fun _ ha =>
    State.exec_iff (State.sound_of_reachable h) (State.conserved_of_careful h) ha⟩

end

/-! ### A queue without room -/

namespace Example

/-- Two kinds, in the upper two bits of an identifier. -/
def unpackKind (packed : Nat) : Nat := packed >>> 62

/-- A manager with two kinds. -/
def manager : PollerManager Nat where
  contexts := [1, 2]
  done := true
  queues := PollerManager.allToAll [1, 2]

/-- Nothing was polled. -/
def start : State Nat := { manager }

theorem init_start : State.Init start :=
  ⟨[2, 1], { contexts := [1, 2] }, manager, 2, by decide, by decide, rfl⟩

/-- A completion of the second kind. -/
def second : IbvWc := { wrId := 2 ^ 63, status := 0, rest := 0 }

/-- After `n` completions of the second kind. -/
def completed (n : Nat) : State Nat :=
  { manager
    cq := List.replicate n second
    stream := List.replicate n second.toWC }

theorem reachable_completed (good : State Nat → Event Nat → Prop)
    (hgood : ∀ s wc, good s (.complete wc)) (n : Nat) :
    Reachable State.Init (State.Step unpackKind) good (completed n) := by
  induction n with
  | zero => exact .init init_start
  | succ n ih =>
      refine .step (l := .complete second) ih (hgood _ _) ⟨?_, ?_⟩
      · exact (by decide +kernel : unpackKind second.wrId ∈ manager.contexts)
      · rw [completed, completed, List.replicate_succ', List.replicate_succ']
        rfl

end Example

/-- Two completions of the other kind are forwarded. -/
theorem conserves_two :
    ∃ s', (Example.completed 2).exec Example.unpackKind
        (.call 1 [Example.second, Example.second] (some 2)) = .ok s' ∧
      s'.Conserved Example.unpackKind := by
  have hr := Example.reachable_completed (State.Careful Example.unpackKind)
    (fun _ _ => trivial) 2
  obtain ⟨s', hs, hiff, -⟩ := (conserves_completions hr).2
    (.call 1 [Example.second, Example.second] (some 2)) ⟨by decide, fun n hn => by
      cases hn
      exact ⟨by decide +kernel, by decide +kernel⟩⟩
  refine ⟨s', hs, hiff.mpr fun n hn k hk hne => ?_⟩
  cases hn
  obtain rfl : k = 2 := (List.mem_cons.mp hk).elim (absurd · hne) List.mem_singleton.mp
  decide +kernel

/-- The first context polls one completion more of the second kind than the four blocks of the queue
hold. -/
theorem completion_lost :
    ∃ s s', Reachable State.Init (State.Step Example.unpackKind) Always s ∧
      State.Step Example.unpackKind s
        (.call 1 (List.replicate 2045 Example.second) (some 2045)) s' ∧
      ¬ s'.Conserved Example.unpackKind := by
  have hr := Example.reachable_completed (State.Careful Example.unpackKind)
    (fun _ _ => trivial) 2045
  have hsound := State.sound_of_reachable hr
  have ha : (Example.completed 2045).Allowed Example.unpackKind
      (.call 1 (List.replicate 2045 Example.second) (some 2045)) := by
    refine ⟨by decide, fun n hn => ?_⟩
    cases hn
    exact ⟨by decide +kernel, by decide +kernel⟩
  obtain ⟨s', hs, hiff, -⟩ := State.exec_iff hsound (State.conserved_of_careful hr) ha
  refine ⟨_, s', hr.always, ⟨ha, hs⟩, fun hconserved => ?_⟩
  have hroom := hiff.mp hconserved 2045 rfl 2 (by decide) (by decide)
  exact absurd hroom (by decide +kernel)

end Ubft.Conn
