import Ubft.Certifier.Tail

/-!
# Certifier — the replica's own shares

A `Signer` is a certifier whose share computations are as the thread pool has them: a queue, of
which the workers take the oldest one, and the computations that a worker runs.  The shares
computed come back through a concurrent queue, which keeps the order of one worker's shares but
not of different ones; `reorder` brings any of them to its front.

Most operations leave the replica's own shares aside (`Aside`).
-/

namespace Ubft.Certifier

variable {M : Type}

/-- A certifier and its workers.  `shareComputations` are the tasks that no worker took.  The last
two fields are history: the indices acknowledged, and the shares sent. -/
structure Signer (M : Type) where
  certifier : Certifier M
  runningShares : List (Index × M) := []
  acknowledged : List Index := []
  sent : List Share := []

/-- What the certifier does, and its workers with the shares to compute. -/
inductive SignerOp (M : Type) where
  | op (op : Op M)
  | startShare
  | finishShare (k : Nat)
  | reorder (k : Nat)

/-- The computed shares in the places reserved for them. -/
def sortComputed (s : Certifier M) : TailMap (Option Share) :=
  s.computedShares.foldl (fun t sh => t.modify sh.msgIndex (fun _ => some sh))
    s.sortedComputedShares

/-- The shares that `op` sends to the peers. -/
def sends (s : Certifier M) : Op M → List Share
  | .pollComputedShares =>
    match s.msgTail.first? with
    | none => []
    | some (first, _) => sendable first s.sortComputed.map.entries
  | _ => []

/-- The index that `op` acknowledges. -/
def Op.acknowledges : Op M → List Index
  | .acknowledge i _ => [i]
  | _ => []

namespace Signer

/-- A worker takes the oldest task. -/
def startShare (s : Signer M) : Signer M :=
  match s.certifier.shareComputations with
  | [] => s
  | t :: ts =>
    { s with
      certifier := { s.certifier with shareComputations := ts }
      runningShares := s.runningShares ++ [t] }

/-- A worker signs the `k`-th message that one is at work on. -/
def finishShare (cr : Crypto M) (s : Signer M) (k : Nat) : Signer M :=
  match s.runningShares[k]? with
  | none => s
  | some (i, m) =>
    { s with
      certifier := { s.certifier with
        computedShares :=
          s.certifier.computedShares ++ [⟨i, cr.sign (hashOf cr s.certifier i m)⟩] }
      runningShares := s.runningShares.eraseIdx k }

/-- The `k`-th share computed is the one that is dequeued next. -/
def reorder (s : Signer M) (k : Nat) : Signer M :=
  match s.certifier.computedShares[k]? with
  | none => s
  | some sh =>
    { s with
      certifier := { s.certifier with
        computedShares := sh :: s.certifier.computedShares.eraseIdx k } }

/-- `computeShare` is what the three last operations are in detail. -/
def next (cr : Crypto M) (s : Signer M) : SignerOp M → Except Error (Signer M)
  | .op (.computeShare _) => .ok s
  | .op op => do
    let certifier ← s.certifier.apply cr op
    return { s with
      certifier
      acknowledged := s.acknowledged ++ op.acknowledges
      sent := s.sent ++ s.certifier.sends op }
  | .startShare => .ok s.startShare
  | .finishShare k => .ok (s.finishShare cr k)
  | .reorder k => .ok (s.reorder k)

/-- A signer that did nothing. -/
def Init (s : Signer M) : Prop := ∃ certifier : Certifier M, certifier.Init ∧ s = { certifier }

/-- The step relation of a signer. -/
def Step (cr : Crypto M) (s : Signer M) (op : SignerOp M) (s' : Signer M) : Prop :=
  s.next cr op = .ok s'

/-- No index is acknowledged twice.  `acknowledge` refuses to, as long as the message is in the
tail and its place does not wrap. -/
def Fresh (s : Signer M) : SignerOp M → Prop
  | .op (.acknowledge i _) => i ∉ s.acknowledged
  | _ => True

/-- Where `acknowledge` drops shares computed and not polled yet, their messages are not in the
tail any more. -/
def Trims (s : Signer M) : SignerOp M → Prop
  | .op (.acknowledge i _) =>
    ∀ sh ∈ s.certifier.computedShares.take
        (s.certifier.computedShares.length + 1 - s.certifier.tail),
      (s.certifier.msgTail.find? sh.msgIndex).isSome → sh.msgIndex + s.certifier.tail ≤ i
  | _ => True

/-- No message is acknowledged behind one whose place in the tail wraps. -/
def Unwrapped (s : Signer M) : SignerOp M → Prop
  | .op (.acknowledge _ _) => ∀ j ∈ s.acknowledged, j + s.certifier.tail < 2 ^ 64
  | _ => True

instance (s : Signer M) : DecidablePred s.Fresh
  | .op (.acknowledge _ _) => inferInstanceAs (Decidable (_ ∉ _))
  | .op (.receivedImplicitPromise _ _) | .op .pollPromise | .op .pollCertificate
  | .op (.forgetMessages _) | .op (.toggleFastPath _) | .op (.toggleSlowPath _)
  | .op (.handlePromise _ _) | .op (.handleShare _ _) | .op (.startCheck _)
  | .op (.finishCheck _) | .op .pollVerifiedShare | .op .offloadShareComputation
  | .op (.computeShare _) | .op .pollComputedShares | .startShare | .finishShare _
  | .reorder _ => inferInstanceAs (Decidable True)

instance (s : Signer M) : DecidablePred s.Trims
  | .op (.acknowledge _ _) => inferInstanceAs (Decidable (∀ sh ∈ _, _ → _))
  | .op (.receivedImplicitPromise _ _) | .op .pollPromise | .op .pollCertificate
  | .op (.forgetMessages _) | .op (.toggleFastPath _) | .op (.toggleSlowPath _)
  | .op (.handlePromise _ _) | .op (.handleShare _ _) | .op (.startCheck _)
  | .op (.finishCheck _) | .op .pollVerifiedShare | .op .offloadShareComputation
  | .op (.computeShare _) | .op .pollComputedShares | .startShare | .finishShare _
  | .reorder _ => inferInstanceAs (Decidable True)

instance (s : Signer M) : DecidablePred s.Unwrapped
  | .op (.acknowledge _ _) => inferInstanceAs (Decidable (∀ j ∈ _, _))
  | .op (.receivedImplicitPromise _ _) | .op .pollPromise | .op .pollCertificate
  | .op (.forgetMessages _) | .op (.toggleFastPath _) | .op (.toggleSlowPath _)
  | .op (.handlePromise _ _) | .op (.handleShare _ _) | .op (.startCheck _)
  | .op (.finishCheck _) | .op .pollVerifiedShare | .op .offloadShareComputation
  | .op (.computeShare _) | .op .pollComputedShares | .startShare | .finishShare _
  | .reorder _ => inferInstanceAs (Decidable True)

end Signer

/-! ### The operations that leave the replica's own shares aside -/

variable {cr : Crypto M} {s s' : Certifier M}

/-- The tail keeps its messages, and no share of the replica's own moves. -/
structure Aside (s s' : Certifier M) : Prop where
  tail : s'.tail = s.tail
  bound : s'.msgTail.tail = s.msgTail.tail
  min : s'.msgTail.min = s.msgTail.min
  keys : ∀ i, (s'.msgTail.find? i).isSome = (s.msgTail.find? i).isSome
  queued : s'.queuedShareComputations = s.queuedShareComputations
  tasks : s'.shareComputations = s.shareComputations
  computed : s'.computedShares = s.computedShares
  sorted : s'.sortedComputedShares = s.sortedComputedShares

namespace Aside

theorem refl (s : Certifier M) : Aside s s := ⟨rfl, rfl, rfl, fun _ => rfl, rfl, rfl, rfl, rfl⟩

/-- An operation that leaves the tail alone, too. -/
theorem of_eq (ht : s'.tail = s.tail) (hm : s'.msgTail = s.msgTail)
    (hq : s'.queuedShareComputations = s.queuedShareComputations)
    (hs : s'.shareComputations = s.shareComputations) (hc : s'.computedShares = s.computedShares)
    (ho : s'.sortedComputedShares = s.sortedComputedShares) : Aside s s' :=
  ⟨ht, by rw [hm], by rw [hm], fun _ => by rw [hm], hq, hs, hc, ho⟩

theorem trans {s'' : Certifier M} (h : Aside s s') (h' : Aside s' s'') : Aside s s'' :=
  ⟨h'.tail.trans h.tail, h'.bound.trans h.bound, h'.min.trans h.min,
    fun i => (h'.keys i).trans (h.keys i), h'.queued.trans h.queued, h'.tasks.trans h.tasks,
    h'.computed.trans h.computed, h'.sorted.trans h.sorted⟩

/-- A message changes, and not what was computed of it. -/
theorem modify (s : Certifier M) (i : Index) (f : MessageData M → MessageData M) :
    Aside s { s with msgTail := s.msgTail.modify i f } := by
  refine ⟨rfl, rfl, rfl, fun k => ?_, rfl, rfl, rfl, rfl⟩
  change ((s.msgTail.modify i f).find? k).isSome = _
  rw [TailMap.find?_modify]
  split
  · next hk => rw [Option.isSome_map, hk]
  · rfl

end Aside

theorem aside_enqueueShareVerification (s : Certifier M) (sh : Share) (r : Nat) :
    Aside s (enqueueShareVerification cr s sh r) := by
  unfold enqueueShareVerification
  split
  · exact .refl s
  · exact .of_eq rfl rfl rfl rfl rfl rfl

theorem aside_replayPromise {i : Index} {r : Nat} (h : replayPromise i s r = .ok s') :
    Aside s s' := by
  unfold replayPromise at h
  split at h
  · cases h; exact .of_eq rfl rfl rfl rfl rfl rfl
  · split at h
    · cases h; exact .of_eq rfl rfl rfl rfl rfl rfl
    · split at h
      · cases h; exact .refl s
      · simp only at h
        split at h
        · cases h
          exact (Aside.modify s i _).trans (.of_eq rfl rfl rfl rfl rfl rfl)
        · cases h

theorem aside_replayPromises {i : Index} {rs : List Nat} (h : replayPromises i s rs = .ok s') :
    Aside s s' := by
  induction rs generalizing s with
  | nil => cases h; exact .refl _
  | cons r rs ih =>
      obtain ⟨s₁, h₁, h₂⟩ := bind_eq_ok.mp h
      exact (aside_replayPromise h₁).trans (ih h₂)

theorem aside_replayBufferedPromises {i : Index} (h : replayBufferedPromises i s = .ok s') :
    Aside s s' := by
  unfold replayBufferedPromises at h
  split at h
  · exact aside_replayPromises h
  · cases h; exact .refl s

theorem aside_replayShare (i : Index) (s : Certifier M) (r : Nat) :
    Aside s (replayShare cr i s r) := by
  unfold replayShare
  split
  · exact .of_eq rfl rfl rfl rfl rfl rfl
  · next sh shs _ =>
      split
      · exact .of_eq rfl rfl rfl rfl rfl rfl
      · have h : Aside s { s with bufferedShares := Function.update s.bufferedShares r shs } :=
          .of_eq rfl rfl rfl rfl rfl rfl
        exact h.trans (aside_enqueueShareVerification _ _ _)

theorem aside_replayBufferedShares (i : Index) (s : Certifier M) :
    Aside s (replayBufferedShares cr i s) := by
  unfold replayBufferedShares
  generalize List.range s.receivers.length = rs
  induction rs generalizing s with
  | nil => exact .refl s
  | cons r rs ih => exact (aside_replayShare i s r).trans (ih _)

theorem aside_handleVerifiedShare {r : Nat} {sh : Share} {b : Bool}
    (h : s.handleVerifiedShare r sh b = .ok s') : Aside s s' := by
  unfold handleVerifiedShare at h
  split at h
  · cases h
  · split at h
    · cases h; exact .refl s
    · simp only at h
      split at h
      · cases h; exact .modify s _ _
      · cases h

theorem aside_pollVerifiedShare (h : s.pollVerifiedShare = .ok s') : Aside s s' := by
  unfold pollVerifiedShare at h
  split at h
  · next rest _ =>
      have hr : Aside s { s with verifiedShares := rest } := .of_eq rfl rfl rfl rfl rfl rfl
      exact hr.trans (aside_handleVerifiedShare h)
  · split at h
    · next rest _ =>
        have hr : Aside s { s with myShares := rest } := .of_eq rfl rfl rfl rfl rfl rfl
        exact hr.trans (aside_handleVerifiedShare h)
    · cases h; exact .refl s

/-- An operation that neither acknowledges nor forgets, and is not one of the own shares. -/
theorem aside_apply {op : Op M} (hop : ∀ i m, op ≠ .acknowledge i m)
    (hf : ∀ i, op ≠ .forgetMessages i) (ho : op ≠ .offloadShareComputation)
    (hc : ∀ k, op ≠ .computeShare k) (hp : op ≠ .pollComputedShares)
    (h : s.apply cr op = .ok s') : Aside s s' := by
  cases op with
  | acknowledge i m => exact absurd rfl (hop i m)
  | receivedImplicitPromise p i =>
      simp only [Certifier.apply, receivedImplicitPromise] at h
      split at h
      · cases h; exact .refl s
      · split at h
        · cases h
        · cases h; exact .modify s i _
  | pollPromise =>
      cases h
      obtain ⟨n, he, -⟩ := pollPromise_eq s
      rw [he]
      exact .of_eq rfl rfl rfl rfl rfl rfl
  | pollCertificate =>
      cases h
      obtain ⟨n, he, -⟩ := pollCertificate_eq cr s
      rw [he]
      exact .of_eq rfl rfl rfl rfl rfl rfl
  | forgetMessages i => exact absurd rfl (hf i)
  | toggleFastPath b => cases h; exact .of_eq rfl rfl rfl rfl rfl rfl
  | toggleSlowPath b => cases h; exact .of_eq rfl rfl rfl rfl rfl rfl
  | handlePromise i r =>
      simp only [Certifier.apply, handlePromise] at h
      split at h
      · split at h
        · split at h
          · cases h; exact .modify s i _
          · cases h
        · split at h
          · cases h
          · cases h; exact .of_eq rfl rfl rfl rfl rfl rfl
      · cases h; exact .refl s
  | handleShare sh r =>
      simp only [Certifier.apply, handleShare] at h
      split at h
      · split at h
        · cases h; exact aside_enqueueShareVerification s sh r
        · split at h
          · cases h
          · cases h; exact .of_eq rfl rfl rfl rfl rfl rfl
      · cases h; exact .refl s
  | startCheck r =>
      cases h
      unfold startCheck
      split
      · exact .refl s
      · exact .of_eq rfl rfl rfl rfl rfl rfl
  | finishCheck k =>
      cases h
      unfold finishCheck
      split
      · exact .refl s
      · simp only
        split <;> exact .of_eq rfl rfl rfl rfl rfl rfl
  | pollVerifiedShare => exact aside_pollVerifiedShare h
  | offloadShareComputation => exact absurd rfl ho
  | computeShare k => exact absurd rfl (hc k)
  | pollComputedShares => exact absurd rfl hp

end Ubft.Certifier
