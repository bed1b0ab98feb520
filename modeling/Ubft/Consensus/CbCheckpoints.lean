import Ubft.Consensus.Deployment
import Ubft.Consensus.Streams

/-!
# Consensus — CB checkpoints

Two replicas that certify the same prefix of a CB stream certify the same bytes, as long as they
leave the same of its Prepares early (`cbCheckpoint_eq`): `checkpointCb` then is a function of the
messages.

`handlePrepare` returns before it updates `next_prepare` and `valid_values` when the Prepare is of
another view than the replica's own, or below the checkpoint it has a certificate of.  Neither is
in the stream, so that two replicas may make different bytes of it (`cbCheckpoint_ne`).  While
`handleNewView` waits for the replica to reach the view of the NewView, messages of the same
sender are handled before the NewView itself is.
-/

namespace Ubft.Consensus

variable {cfg : Config} {s s' : Consensus} {inp : Input} {q : Nat}

/-! ### What is still to be done -/

namespace Cmd

/-- What the command is going to make of the stream of `q`. -/
def finish (cfg : Config) (q : Nat) (x : Stream) : Cmd → Stream
  | .sealView r => if r = q then x.sealView else x
  | .catchUp r m => if r = q then x.newView cfg m else x
  | _ => x

/-- The command changes a stream, as `finish` says. -/
def delays : Cmd → Bool
  | .sealView _ | .catchUp _ _ => true
  | _ => false

/-- The replica whose NewView is handled. -/
def catchesUp : Cmd → Option Nat
  | .catchUp r _ => some r
  | _ => none

/-- The replica whose stream is certified. -/
def certifies : Cmd → Option Nat
  | .maybeCertifyCbCheckpoint r | .certifyCbCheckpoint r => some r
  | _ => none

/-- The command waits for commits to be verified. -/
def verifies : Cmd → Bool
  | .waitVerified _ | .pollVerifiedCommits => true
  | _ => false

theorem finish_of_not_delays {c : Cmd} (h : c.delays = false) (x : Stream) :
    c.finish cfg q x = x := by
  cases c with
  | sealView r => cases h
  | catchUp r m => cases h
  | _ => rfl

end Cmd

/-- What the commands are going to make of the stream of `q`. -/
def finish (cfg : Config) (q : Nat) (cs : List Cmd) (x : Stream) : Stream :=
  cs.foldl (Cmd.finish cfg q) x

/-- The commands left are finished in their order. -/
theorem finish_append (cs cs' : List Cmd) (x : Stream) :
    finish cfg q (cs ++ cs') x = finish cfg q cs' (finish cfg q cs x) := List.foldl_append

theorem finish_cons (c : Cmd) (cs : List Cmd) (x : Stream) :
    finish cfg q (c :: cs) x = finish cfg q cs (c.finish cfg q x) := rfl

/-- Nothing is to be done of the messages of `q`. -/
theorem finish_eq_self {cs : List Cmd} (hu : ∀ c ∈ cs, c.catchesUp ≠ some q)
    (hs : ∀ c ∈ cs, c ≠ .sealView q) (x : Stream) : finish cfg q cs x = x := by
  induction cs with
  | nil => rfl
  | cons c cs ih =>
      have hc : c.finish cfg q x = x := by
        have hu := hu c List.mem_cons_self
        have hs := hs c List.mem_cons_self
        cases c with
        | sealView r => exact if_neg fun hr : r = q => hs (hr ▸ rfl)
        | catchUp r m => exact if_neg fun hr : r = q => hu (hr ▸ rfl)
        | _ => rfl
      rw [finish_cons, hc]
      exact ih (fun c h => hu c (List.mem_cons_of_mem _ h))
        fun c h => hs c (List.mem_cons_of_mem _ h)

theorem finish_of_not_delays {cs : List Cmd} (h : ∀ c ∈ cs, c.delays = false) (x : Stream) :
    finish cfg q cs x = x := by
  refine finish_eq_self (fun c hc hu => ?_) (fun c hc hs => ?_) x
  · have hd := h c hc
    cases c with
    | catchUp r m => cases hd
    | _ => cases hu
  · have hd := h c hc
    rw [hs] at hd
    cases hd

/-! ### The order of the commands -/

/-- What `c'` is not, behind `c`: nothing of `q` is left to be done where its stream is certified,
and only the verification of commits comes before the end of `handleSealView`. -/
structure Before (q : Nat) (c c' : Cmd) : Prop where
  catchesUp : c.certifies = some q → c'.catchesUp ≠ some q
  sealView : c.verifies = false → ∀ r, c' ≠ .sealView r

/-- A command before a later one, by what it certifies and verifies. -/
theorem Before.mono {a b c : Cmd} (h : Before q c b)
    (hq : a.certifies = some q → c.certifies = some q)
    (hv : a.verifies = false → c.verifies = false) : Before q a b :=
  ⟨fun ha => h.catchesUp (hq ha), fun ha => h.sealView (hv ha)⟩

theorem before_of_not_delays {c c' : Cmd} (h : c'.delays = false) : Before q c c' := by
  refine ⟨fun _ hu => ?_, fun _ r hs => ?_⟩
  · cases c' with
    | catchUp r m => cases h
    | _ => cases hu
  · rw [hs] at h
    cases h

theorem pairwise_of_not_delays {cs : List Cmd} (h : ∀ c ∈ cs, c.delays = false) :
    cs.Pairwise (Before q) :=
  List.pairwise_of_forall_mem_list fun _ _ c' hc' => before_of_not_delays (h c' hc')

/-- The commands that hand over a message. -/
def Cmd.receives : Cmd → Bool
  | .pollCb _ | .broadcast _ | .proposeNext => true
  | _ => false

theorem Cmd.receives_cases {c : Cmd} (h : c.receives = true) :
    (∃ r, c = .pollCb r) ∨ c = .proposeNext ∨ ∃ m, c = .broadcast m := by
  cases c with
  | pollCb r => exact .inl ⟨r, rfl⟩
  | proposeNext => exact .inr (.inl rfl)
  | broadcast m => exact .inr (.inr ⟨m, rfl⟩)
  | _ => cases h

/-- A command that delivers a message hands one over. -/
theorem Cmd.receives_of_delivers {c : Cmd} {r : Nat} {m : Message}
    (h : c = .pollCb r ∨ r = cfg.localIndex ∧ (c = .broadcast m ∨ c = .proposeNext)) :
    c.receives = true := by
  rcases h with rfl | ⟨-, rfl | rfl⟩ <;> rfl

/-- What comes before a command that hands over no message comes before what it leads to. -/
theorem before_of_leads {a b c : Cmd} (hl : Leads cfg c a) (hc : c.receives = false)
    (h : Before q c b) : Before q a b := by
  cases hl with
  | delivers hr _ _ =>
      rw [Cmd.receives_of_delivers hr] at hc
      cases hc
  | cbCertify r => exact h.mono id fun _ => rfl
  | cbWait r => exact h.mono nofun nofun
  | verify r => exact h.mono nofun nofun
  | verifyAgain r => exact h
  | verified => exact h
  | _ => exact h.mono nofun fun _ => rfl

theorem not_delays_of_leads {a c : Cmd} (hl : Leads cfg c a) (hc : c.receives = false)
    (hu : c.delays = false) : a.delays = false := by
  cases hl with
  | delivers hr _ _ =>
      rw [Cmd.receives_of_delivers hr] at hc
      cases hc
  | catchUp r m => cases hu
  | catchUpAgain r m => cases hu
  | _ => rfl

/-- The message a step hands over, with its sender. -/
def handing (cfg : Config) (m : Machine) : Label → Option (Nat × Message)
  | .exec inp =>
    match m.todo, inp.cb, m.core.toPropose with
    | .pollCb r :: _, some (_, msg), _ => some (r, msg)
    | .broadcast msg :: _, _, _ => some (cfg.localIndex, msg)
    | .proposeNext :: _, _, p :: _ => some (cfg.localIndex, .prepare p)
    | _, _, _ => none
  | _ => none

theorem handing_of_receives {c : Cmd} {r : Nat} {m : Message} {s₁ : Consensus}
    (h : Receives cfg s inp c r m s₁) (rest : List Cmd) :
    handing cfg ⟨s, c :: rest⟩ (.exec inp) = some (r, m) := by
  cases h with
  | poll hi => simp only [handing, hi]
  | broadcast => rfl
  | propose hp => simp only [handing, hp]

/-- What a delivery leaves to be done certifies last. -/
theorem pairwise_delivers {r : Nat} {m : Message} {cs : List Cmd} (h : Delivers r m cs) :
    cs.Pairwise (Before q) := by
  rcases h with rfl | ⟨-, rfl⟩ | ⟨rfl, rfl⟩ | ⟨nv, rfl, rfl⟩
  · exact List.pairwise_singleton ..
  · exact List.pairwise_singleton ..
  · refine .cons (fun c' hc' => ⟨nofun, nofun⟩) (.cons (fun c' hc' => ?_)
      (List.pairwise_singleton ..))
    rw [List.mem_singleton.mp hc']
    exact before_of_not_delays rfl
  · refine .cons (fun c' hc' => ?_) (List.pairwise_singleton ..)
    rw [List.mem_singleton.mp hc']
    exact before_of_not_delays rfl

/-- Only the broadcaster of a message is certified for it. -/
theorem certifies_of_delivers {r : Nat} {m : Message} {cs : List Cmd} (h : Delivers r m cs)
    {a : Cmd} (ha : a ∈ cs) (hq : a.certifies = some q) : r = q := by
  cases h.delivered ha with
  | certify m => exact Option.some.inj hq
  | _ => cases hq

/-- **The order.**  A command keeps it, unless it hands over a message of `q` while a NewView of
`q` is handled. -/
theorem ordered_exec {c : Cmd} {cs rest : List Cmd} (h : exec cfg s inp c = .ok (s', cs))
    (ho : (c :: rest).Pairwise (Before q))
    (hu : ∀ m, handing cfg ⟨s, c :: rest⟩ (.exec inp) = some (q, m) →
      ∀ c' ∈ c :: rest, c'.catchesUp ≠ some q) : (cs ++ rest).Pairwise (Before q) := by
  obtain ⟨hc, hrest⟩ := List.pairwise_cons.mp ho
  cases hr : c.receives with
  | true =>
      -- a message is handed over: its sender has no NewView that is handled
      have hv : c.verifies = false := by
        rcases Cmd.receives_cases hr with ⟨r, rfl⟩ | rfl | ⟨m, rfl⟩ <;> rfl
      rcases exec_receives h (Cmd.receives_cases hr) with ⟨-, ⟨-, rfl⟩ | rfl⟩ |
        ⟨r, m, s₁, cs₀, hm, hh, rfl⟩
      · exact hrest
      · exact .cons (fun b hb => ⟨nofun, fun _ => (hc b hb).sealView hv⟩) hrest
      · have hd := handleMessage_delivers hh
        refine List.pairwise_append.mpr ⟨pairwise_delivers hd, hrest, fun a ha b hb => ?_⟩
        refine ⟨fun hq => ?_, fun _ => (hc b hb).sealView hv⟩
        obtain rfl : r = q := certifies_of_delivers hd ha hq
        exact hu m (handing_of_receives hm rest) b (List.mem_cons_of_mem _ hb)
  | false =>
      -- any other command leads to nothing that had to come before
      have hl : ∀ a ∈ cs, Leads cfg c a := fun a ha => leads_of_spawns (exec_spawns h) ha
      refine List.pairwise_append.mpr ⟨?_, hrest, fun a ha b hb =>
        before_of_leads (hl a ha) hr (hc b hb)⟩
      cases hd : c.delays with
      | false => exact pairwise_of_not_delays fun a ha => not_delays_of_leads (hl a ha) hr hd
      | true =>
          cases c with
          | sealView r =>
              obtain rfl : cs = [] := exec_spawns h
              exact .nil
          | catchUp r m =>
              rcases exec_spawns h with rfl | rfl
              · exact .nil
              · exact .cons (fun b hb => ⟨nofun, fun _ r hs => by
                  rw [List.mem_singleton.mp hb] at hs
                  cases hs⟩) (List.pairwise_singleton ..)
          | _ => cases hd

theorem not_delays_of_call {c : Call} {cs : List Cmd} (h : call cfg s c = .ok (s', cs)) :
    ∀ a ∈ cs, a.delays = false := by
  intro a ha
  cases called_of_call h ha <;> rfl

/-! ### What a command does to the streams -/

/-- What a command may do to the streams: nothing, receive a message, wait, seal, or accept. -/
inductive Moves (cfg : Config) (s : Consensus) (inp : Input) :
    Cmd → Consensus → List Cmd → Prop where
  | same {c : Cmd} {s' : Consensus} {cs : List Cmd} (h : Same s s')
      (hf : ∀ q x, finish cfg q cs x = c.finish cfg q x) : Moves cfg s inp c s' cs
  | receive {c : Cmd} {r : Nat} {m : Message} {s₁ s' : Consensus} {cs : List Cmd}
      (h : Receives cfg s inp c r m s₁) (hm : handleMessage cfg s₁ r m = .ok (s', cs)) :
      Moves cfg s inp c s' (cs ++ [.maybeCertifyCbCheckpoint r])
  | spin (c : Cmd) (s' : Consensus) : Moves cfg s inp c s' [.spin]
  | seal {r : Nat} {s' : Consensus} (h : sealView cfg s r = .ok s') :
      Moves cfg s inp (.sealView r) s' []
  | accept {r : Nat} {m : NewViewMessage} {s' : Consensus} (h : acceptNewView cfg s r m = .ok s') :
      Moves cfg s inp (.catchUp r m) s' []

/-- **What a command does to the streams.** -/
theorem exec_moves {c : Cmd} {cs : List Cmd} (h : exec cfg s inp c = .ok (s', cs)) :
    Moves cfg s inp c s' cs := by
  have hsame : c.receives = false → c.delays = false → Same s s' → Moves cfg s inp c s' cs := by
    intro hr hd hs
    refine .same hs fun q x => ?_
    -- neither the command nor what it leads to waits with a message
    have hcs : ∀ a ∈ cs, a.delays = false :=
      fun a ha => not_delays_of_leads (leads_of_spawns (exec_spawns h) ha) hr hd
    rw [finish_of_not_delays hcs, Cmd.finish_of_not_delays hd]
  have hreceive : c.receives = true → Moves cfg s inp c s' cs := by
    intro hr
    rcases exec_receives h (Cmd.receives_cases hr) with ⟨-, ⟨rfl, rfl⟩ | rfl⟩ |
      ⟨r, m, s₁, cs₀, hm, hh, rfl⟩
    · refine .same rfl fun q x => (Cmd.finish_of_not_delays ?_ x).symm
      rcases Cmd.receives_cases hr with ⟨r, rfl⟩ | rfl | ⟨m, rfl⟩ <;> rfl
    · exact .spin ..
    · exact .receive hm hh
  cases c with
  | pollCb r => exact hreceive rfl
  | proposeNext => exact hreceive rfl
  | broadcast m => exact hreceive rfl
  | certifyCbCheckpoint r => exact hsame rfl rfl (same_certifyCbCheckpoint (pure_eq_ok h).1)
  | sealView r =>
      obtain ⟨hs, rfl⟩ := pure_eq_ok h
      exact .seal hs
  | catchUp r m =>
      simp only [exec] at h
      split at h
      · cases h; exact .same rfl fun _ _ => rfl
      · obtain ⟨ha, rfl⟩ := pure_eq_ok h
        exact .accept ha
  | pollPrepareCertificatePromises =>
      refine hsame rfl rfl ?_
      simp only [exec, pollPrepareCertificatePromises] at h
      split at h
      · cases h; exact rfl
      · cases h; exact same_handlePromise { s with prepareCertifier := _ } _
  | tryCertifyPrepares => exact hsame rfl rfl (same_tryCertifyPrepares (pure_eq_ok h).1)
  | pollPrepareCertificates =>
      refine hsame rfl rfl ?_
      simp only [exec, pollPrepareCertificates] at h
      split at h
      · cases h; exact rfl
      · cases h; exact rfl
  | pollVerifiedCommits => exact hsame rfl rfl (same_handleVerifiedCommits (pure_eq_ok h).1)
  | pollFastCommit r => exact hsame rfl rfl (same_pollFastCommit (pure_eq_ok h).1)
  | pruneInstances low n => refine hsame rfl rfl ?_; cases h; exact rfl
  | changeView => refine hsame rfl rfl ?_; cases h; exact rfl
  | forgetView => refine hsame rfl rfl ?_; cases h; exact rfl
  | _ =>
      obtain ⟨x, rfl⟩ := exec_peripheral h rfl
      exact hsame rfl rfl rfl

/-- Whether the handler of a message is left before anything is deduced from it. -/
def leftEarly (cfg : Config) (s : Consensus) : Message → Bool
  | .prepare p => decide (LeftEarly cfg s p)
  | _ => false

/-- Receiving does not change which Prepares are left. -/
theorem Receives.leftEarly {c : Cmd} {r : Nat} {m : Message} {s₁ : Consensus}
    (h : Receives cfg s inp c r m s₁) : leftEarly cfg s₁ m = leftEarly cfg s m := by
  cases m with
  | prepare p =>
      refine decide_eq_decide.mpr ?_
      rw [LeftEarly, LeftEarly, h.keeps.atView, certifiedCheckpoint, certifiedCheckpoint,
        h.checkpointCertificate]
  | _ => rfl

/-- The handler of a message of `r` and what it leads to make of the stream of `r` what the message
makes of it, and nothing of the others. -/
theorem deduced_handleMessage {r : Nat} {m : Message} {cs : List Cmd}
    (h : handleMessage cfg s r m = .ok (s', cs)) :
    ∃ x, s'.deduced = s.deduced.set r x ∧
      finish cfg r cs x = (s.states r).stream.handle cfg (leftEarly cfg s m) m ∧
      ∀ r' ≠ r, ∀ y, finish cfg r' cs y = y := by
  have hself : s.deduced = s.deduced.set r (s.states r).stream := (s.deduced.set_self r).symm
  cases m with
  | malformed =>
      cases h
      exact ⟨_, hself, rfl, fun _ _ _ => rfl⟩
  | prepare p =>
      obtain ⟨hp, rfl⟩ := pure_eq_ok h
      exact ⟨_, deduced_handlePrepare hp, rfl, fun _ _ _ => rfl⟩
  | commit o =>
      obtain ⟨ho, rfl⟩ := pure_eq_ok h
      obtain ⟨c, rfl, hd⟩ := deduced_handleCommit ho
      exact ⟨_, hd, rfl, fun _ _ _ => rfl⟩
  | checkpoint o =>
      obtain ⟨ho, rfl⟩ := pure_eq_ok h
      obtain ⟨c, rfl, hd⟩ := deduced_handleCheckpoint ho
      exact ⟨_, hd, rfl, fun _ _ _ => rfl⟩
  | sealView =>
      cases h
      refine ⟨_, hself, if_pos rfl, fun r' hr y => ?_⟩
      exact if_neg (Ne.symm hr)
  | newView nv =>
      obtain ⟨rfl, ⟨hq, rfl⟩ | ⟨hq, rfl, -⟩⟩ := handleNewView_cases h
      · exact ⟨_, hself, (if_pos hq).symm, fun _ _ _ => rfl⟩
      · refine ⟨_, hself, ?_, fun r' hr y => if_neg (Ne.symm hr)⟩
        rw [Stream.handle, if_neg (not_not.mpr hq)]
        exact if_pos rfl

/-! ### Runs -/

/-- A message of `q` is handed over while no NewView of `q` is handled, and its handler is left
early when `early` says so of its index. -/
def Uniform (cfg : Config) (early : Nat → Bool) (q : Nat) (m : Machine) (l : Label) : Prop :=
  ∀ rm ∈ handing cfg m l, rm.1 = q →
    (∀ c ∈ m.todo, c.catchesUp ≠ some q) ∧
      leftEarly cfg m.core rm.2 = early (m.core.states q).nextCb

instance (early : Nat → Bool) (m : Machine) (l : Label) : Decidable (Uniform cfg early q m l) :=
  inferInstanceAs (Decidable (∀ rm ∈ handing cfg m l, _ → _ ∧ _))

/-- The stream of `q` is a function of the messages of `q`, once what is to be done of them is. -/
structure Tracks (cfg : Config) (early : Nat → Bool) (q : Nat) (m : Machine) : Prop where
  ordered : m.todo.Pairwise (Before q)
  stream : m.todo.head? = some .spin ∨
    finish cfg q m.todo (m.core.states q).stream = .after cfg early (received m.core.log q)

/-- A message of `r` was handed over. -/
theorem tracks_receive {early : Nat → Bool} {c : Cmd} {cs rest : List Cmd} {r : Nat} {m : Message}
    {s₁ : Consensus} (hg : Uniform cfg early q ⟨s, c :: rest⟩ (.exec inp))
    (ho : (c :: rest).Pairwise (Before q))
    (hx : finish cfg q (c :: rest) (s.states q).stream = .after cfg early (received s.log q))
    (hr : Receives cfg s inp c r m s₁) (hm : handleMessage cfg s₁ r m = .ok (s', cs)) :
    finish cfg q (cs ++ [.maybeCertifyCbCheckpoint r] ++ rest) (s'.states q).stream =
      .after cfg early (received s'.log q) := by
  have hc : c.delays = false ∧ c.verifies = false := by
    cases hr <;> exact ⟨rfl, rfl⟩
  rw [finish_cons, Cmd.finish_of_not_delays hc.1] at hx
  obtain ⟨x, hd, hfr, hfo⟩ := deduced_handleMessage hm
  have hs' : s'.deduced = (s.deduced.deliver r m).set r x := hr.deduced ▸ hd
  have hst : (s'.states q).stream = ((s.deduced.deliver r m).set r x).streams q :=
    stream_of_deduced hs' q
  have hrc : received s'.log q = Function.update (received s.log) r (m :: received s.log r) q :=
    received_of_deduced hs' q
  rw [finish_append, finish_append, hst, hrc]
  have hmaybe : ∀ y, finish cfg q [.maybeCertifyCbCheckpoint r] y = y := fun _ => rfl
  rw [hmaybe, Deduced.set_streams]
  by_cases hq : q = r
  · subst hq
    obtain ⟨hu, he⟩ := hg (q, m) (handing_of_receives hr rest) rfl
    -- behind the message nothing of `q` is left to be done
    have hrest : ∀ y, finish cfg q rest y = y := fun y =>
      finish_eq_self (fun b hb => hu b (List.mem_cons_of_mem _ hb))
        (fun b hb => ((List.pairwise_cons.mp ho).1 b hb).sealView hc.2 q) y
    have hs₁ : (s₁.states q).stream = (s.states q).stream.delivered :=
      (stream_of_deduced hr.deduced q).trans (Function.update_self ..)
    rw [hrest] at hx
    rw [Function.update_self, Function.update_self, hfr, hrest, hs₁, hr.leftEarly, he,
      Stream.after, ← hx]
    rfl
  · -- a message of another replica
    rw [Function.update_of_ne hq, Function.update_of_ne hq, hfo q hq, ← hx]
    exact congrArg (finish cfg q rest) (Function.update_of_ne hq ..)

/-- A message of `r` that waited is done with. -/
theorem finish_of_set {c : Cmd} (rest : List Cmd) {r : Nat} {f : Stream → Stream}
    (hd : s'.deduced = s.deduced.set r (f (s.states r).stream))
    (hc : ∀ x, c.finish cfg q x = if r = q then f x else x) :
    finish cfg q rest (s'.states q).stream = finish cfg q (c :: rest) (s.states q).stream ∧
      received s'.log q = received s.log q := by
  refine ⟨?_, received_of_deduced hd q⟩
  have hst : (s'.states q).stream = Function.update s.deduced.streams r _ q :=
    stream_of_deduced hd q
  rw [finish_cons, hc, hst]
  by_cases hr : r = q
  · subst hr
    rw [Function.update_self, if_pos rfl]
  · rw [Function.update_of_ne (Ne.symm hr), if_neg hr]
    rfl

/-- The stream is what is deduced, once what is left has been done. -/
theorem tracks_exec {early : Nat → Bool} {c : Cmd} {cs rest : List Cmd}
    (h : exec cfg s inp c = .ok (s', cs)) (hg : Uniform cfg early q ⟨s, c :: rest⟩ (.exec inp))
    (ht : Tracks cfg early q ⟨s, c :: rest⟩) : Tracks cfg early q ⟨s', cs ++ rest⟩ := by
  obtain ⟨ho, hx⟩ := ht
  refine ⟨ordered_exec h ho fun m hm => (hg (q, m) hm rfl).1, ?_⟩
  rcases hx with hsp | hx
  · obtain rfl : c = .spin := Option.some.inj hsp
    obtain rfl : cs = [.spin] := exec_spawns h
    exact .inl rfl
  · cases exec_moves h with
    | same hs hf =>
        have hst : (s'.states q).stream = (s.states q).stream := stream_of_deduced hs q
        have hrc : received s'.log q = received s.log q := received_of_deduced hs q
        right
        rw [finish_append, hf, hst, hrc]
        exact hx
    | receive hr hm => exact .inr (tracks_receive hg ho hx hr hm)
    | spin => exact .inl rfl
    | @«seal» r _ hs =>
        obtain ⟨hf, hrc⟩ := finish_of_set (c := .sealView r) rest (f := Stream.sealView)
          (deduced_sealView hs) fun _ => rfl
        right
        rw [hrc, ← hx]
        exact hf
    | @accept r nv _ ha =>
        obtain ⟨hf, hrc⟩ := finish_of_set (c := .catchUp r nv) rest
          (f := fun x => x.newView cfg nv) (deduced_acceptNewView ha) fun _ => rfl
        right
        rw [hrc, ← hx]
        exact hf

/-- A step that leaves the streams alone. -/
theorem Tracks.same {early : Nat → Bool} {m : Machine} (h : Tracks cfg early q m)
    (hs : Same m.core s') : Tracks cfg early q ⟨s', m.todo⟩ := by
  refine ⟨h.ordered, h.stream.imp id fun hx => ?_⟩
  have hst : (s'.states q).stream = (m.core.states q).stream := stream_of_deduced hs q
  have hrc : received s'.log q = received m.core.log q := received_of_deduced hs q
  rw [hst, hrc]
  exact hx

/-- **Streams.**  In a run that is uniform the stream of `q` is what its messages make of it. -/
theorem Machine.tracks_of_reachable {early : Nat → Bool} {m : Machine}
    (h : Reachable (Init cfg) (Step cfg) (Uniform cfg early q) m) : Tracks cfg early q m := by
  refine h.induct (P := Tracks cfg early q) (fun m hm => ?_) fun m l m' _ ht hg hs => ?_
  · obtain ⟨requestLog, rfl⟩ := hm
    exact ⟨.nil, .inr rfl⟩
  · rcases step_cases hs with ⟨c, s, cs, -, htd, hc, rfl⟩ | ⟨inp, c, rest, s, cs, rfl, htd, hx, rfl⟩ |
      ⟨s, hb, rfl⟩
    · obtain ⟨-, hx⟩ := ht.same (same_call hc)
      rw [htd] at hx
      refine ⟨pairwise_of_not_delays (not_delays_of_call hc), .inr ?_⟩
      rw [finish_of_not_delays (not_delays_of_call hc)]
      exact hx.resolve_left nofun
    · obtain ⟨core, todo⟩ := m
      subst htd
      exact tracks_exec hx hg ht
    · exact ht.same (same_background hb)

/-- What is certified of a stream is a function of its messages. -/
theorem checkpointCb_of_tracks {early : Nat → Bool} {m : Machine} (h : Tracks cfg early q m)
    {rest : List Cmd} (ht : m.todo = .certifyCbCheckpoint q :: rest) :
    (m.core.states q).stream = .after cfg early (received m.core.log q) := by
  obtain ⟨ho, hx⟩ := h
  rw [ht] at ho hx
  rcases hx with hx | hx
  · cases hx
  · -- where the stream is certified nothing of it is left to be done
    obtain ⟨hc, -⟩ := List.pairwise_cons.mp ho
    rw [finish_cons, Cmd.finish_of_not_delays rfl, finish_eq_self
      (fun c h => (hc c h).catchesUp rfl) fun c h => (hc c h).sealView rfl q] at hx
    exact hx

/-- **CB checkpoints.**  Two replicas of a deployment about to certify the same prefix of a stream
certify the same bytes, when they left the same Prepares of it early and handled no message of the
sender while they handled its NewView. -/
theorem cbCheckpoint_eq {cfg₁ cfg₂ : Config} {r₁ r₂ : Nat} {early : Nat → Bool} {m₁ m₂ : Machine}
    {rest₁ rest₂ : List Cmd} (hw : cfg₁.window = cfg₂.window) (hq : cfg₁.quorum = cfg₂.quorum)
    (h₁ : Reachable (Machine.Init cfg₁) (Machine.Step cfg₁) (Uniform cfg₁ early r₁) m₁)
    (h₂ : Reachable (Machine.Init cfg₂) (Machine.Step cfg₂) (Uniform cfg₂ early r₂) m₂)
    (ht₁ : m₁.todo = .certifyCbCheckpoint r₁ :: rest₁)
    (ht₂ : m₂.todo = .certifyCbCheckpoint r₂ :: rest₂)
    (hr : received m₁.core.log r₁ = received m₂.core.log r₂) :
    (m₁.core.states r₁).checkpointCb = (m₂.core.states r₂).checkpointCb := by
  have hx₁ := checkpointCb_of_tracks (Machine.tracks_of_reachable h₁) ht₁
  have hx₂ := checkpointCb_of_tracks (Machine.tracks_of_reachable h₂) ht₂
  refine checkpointCb_eq ?_
  rw [hx₁, hx₂, hr]
  exact Stream.after_congr hw hq early _

namespace Example

open Deployment

/-- Replica 1 of three, with a CB checkpoint every other message. -/
def one : Config := replica 3 1 4 4 one_lt_three

/-- Replica 2. -/
def two : Config := replica 3 2 4 4 (by decide)

/-- Replica 0 broadcasts its first two proposals; the run ends where its stream is about to be
certified. -/
def twoPrepares : List Label :=
  tickCb 0 (.prepare ⟨0, 0, [7]⟩) ++ .call .tick :: drain 2 ++
    .exec { cb := some (1, .prepare ⟨0, 1, [8]⟩) } :: drain 2

/-- The two messages of replica 0 are about to be certified, with the next Prepare `next`. -/
def certifying (next : Nat) (m : Machine) : Bool :=
  m.todo.head? = some (.certifyCbCheckpoint 0) ∧
    received m.core.log 0 = [.prepare ⟨0, 1, [8]⟩, .prepare ⟨0, 0, [7]⟩] ∧
    (m.core.states 0).nextPrepare = next

theorem certifying_cases {next : Nat} {m : Machine} (h : certifying next m = true) :
    (∃ rest, m.todo = .certifyCbCheckpoint 0 :: rest) ∧
      received m.core.log 0 = [.prepare ⟨0, 1, [8]⟩, .prepare ⟨0, 0, [7]⟩] ∧
      (m.core.states 0).nextPrepare = next := by
  obtain ⟨ht, hr, hn⟩ := of_decide_eq_true h
  obtain ⟨rest, ht⟩ := List.head?_eq_some_iff.mp ht
  exact ⟨⟨rest, ht⟩, hr, hn⟩

end Example

/-- Replicas 1 and 2, in view 0, certify the same of two Prepares of replica 0. -/
theorem cbCheckpoint_eq_twoPrepares : ∃ m₁ m₂ : Machine,
    received m₁.core.log 0 = [.prepare ⟨0, 1, [8]⟩, .prepare ⟨0, 0, [7]⟩] ∧
      (m₁.core.states 0).checkpointCb = (m₂.core.states 0).checkpointCb := by
  obtain ⟨m₁, h₁, hs₁⟩ : ∃ m, Reachable (Machine.Init Example.one) (Machine.Step Example.one)
      (Uniform Example.one (fun _ => false) 0) m ∧ Example.certifying 1 m = true :=
    Machine.exists_reachable Deployment.allKnown Example.twoPrepares (by decide +kernel)
  obtain ⟨m₂, h₂, hs₂⟩ : ∃ m, Reachable (Machine.Init Example.two) (Machine.Step Example.two)
      (Uniform Example.two (fun _ => false) 0) m ∧ Example.certifying 1 m = true :=
    Machine.exists_reachable Deployment.allKnown Example.twoPrepares (by decide +kernel)
  obtain ⟨⟨rest₁, ht₁⟩, hr₁, -⟩ := Example.certifying_cases hs₁
  obtain ⟨⟨rest₂, ht₂⟩, hr₂, -⟩ := Example.certifying_cases hs₂
  have hw : Example.one.window = Example.two.window := rfl
  have hq : Example.one.quorum = Example.two.quorum := rfl
  exact ⟨m₁, m₂, hr₁, cbCheckpoint_eq hw hq h₁ h₂ ht₁ ht₂ (hr₁.trans hr₂.symm)⟩

/-- Replica 1 left view 0, and replica 2 did not: they certify different bytes of the same two
Prepares. -/
theorem cbCheckpoint_ne :
    ¬ ∀ (cfg₁ cfg₂ : Config) (r₁ r₂ : Nat) (m₁ m₂ : Machine) (rest₁ rest₂ : List Cmd),
        cfg₁.window = cfg₂.window → cfg₁.quorum = cfg₂.quorum → cfg₁.tail = cfg₂.tail →
        cfg₁.idOf r₁ = cfg₂.idOf r₂ →
        Reachable (Machine.Init cfg₁) (Machine.Step cfg₁) Always m₁ →
        Reachable (Machine.Init cfg₂) (Machine.Step cfg₂) Always m₂ →
        m₁.todo = .certifyCbCheckpoint r₁ :: rest₁ → m₂.todo = .certifyCbCheckpoint r₂ :: rest₂ →
        received m₁.core.log r₁ = received m₂.core.log r₂ →
          (m₁.core.states r₁).checkpointCb = (m₂.core.states r₂).checkpointCb := by
  intro h
  obtain ⟨m₁, h₁, hs₁⟩ : ∃ m, Reachable (Machine.Init Example.one) (Machine.Step Example.one)
      (fun _ _ => True) m ∧ Example.certifying 0 m = true :=
    Machine.exists_reachable Deployment.allKnown
      (.call .changeView :: Deployment.drain 40 ++ Example.twoPrepares) (by decide +kernel)
  obtain ⟨m₂, h₂, hs₂⟩ : ∃ m, Reachable (Machine.Init Example.two) (Machine.Step Example.two)
      (fun _ _ => True) m ∧ Example.certifying 1 m = true :=
    Machine.exists_reachable Deployment.allKnown Example.twoPrepares (by decide +kernel)
  obtain ⟨⟨rest₁, ht₁⟩, hr₁, hn₁⟩ := Example.certifying_cases hs₁
  obtain ⟨⟨rest₂, ht₂⟩, hr₂, hn₂⟩ := Example.certifying_cases hs₂
  have he := h Example.one Example.two 0 0 m₁ m₂ rest₁ rest₂ rfl rfl rfl rfl h₁.always h₂.always ht₁ ht₂
    (hr₁.trans hr₂.symm)
  have hp : (m₁.core.states 0).nextPrepare = (m₂.core.states 0).nextPrepare :=
    congrArg CbCheckpoint.nextPrepare he
  rw [hn₁, hn₂] at hp
  cases hp

end Ubft.Consensus
