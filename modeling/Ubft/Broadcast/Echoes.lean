import Ubft.Broadcast.System

/-!
# Broadcast — the fast path

A message whose echoes all match was taken by every correct receiver (`Echoed`), as long as no echo
looks like that of another message: an echo that passes then has the hash of the message it was sent
for (`blake3_eq_of_echoMatches`).
-/

namespace Ubft.Broadcast

variable {cr : Crypto} {r r' : Receiver} {took took' : ProcId → Bytes → Prop}

/-- The echoes noted and buffered come from their senders; `took q m` says that `q` is correct
and took `m`, `echoes q e` that the echo may come from `q`. -/
structure Echoed (took : ProcId → Bytes → Prop) (sent : ProcId → Buffer → Prop) (r : Receiver) :
    Prop where
  nodup : ∀ i d, r.msgTail.find? i = some d → d.echoes.Nodup
  others : ∀ i d, r.msgTail.find? i = some d → ∀ q ∈ d.echoes, q ∈ r.others
  echoed : ∀ i d, r.msgTail.find? i = some d → d.echoesMatch = true →
    ∀ q ∈ d.echoes, took q d.message
  buffered : ∀ q, ∀ e ∈ r.bufferedEchoes q, sent q e

namespace Echoed

variable {sent sent' : ProcId → Buffer → Prop}

/-- More may have been taken in and sent. -/
theorem mono (h : Echoed took sent r) (ht : ∀ q m, took q m → took' q m)
    (hs : ∀ q e, sent q e → sent' q e) : Echoed took' sent' r :=
  ⟨h.nodup, h.others, fun i d hd hm q hq => ht q _ (h.echoed i d hd hm q hq),
    fun q e he => hs q e (h.buffered q e he)⟩

/-- An operation that adds no echo. -/
theorem congr (h : Echoed took sent r) (ho : r'.others = r.others)
    (hd : ∀ i d', r'.msgTail.find? i = some d' → d'.echoes = [] ∨
      ∃ d, r.msgTail.find? i = some d ∧ d'.message = d.message ∧ d'.echoes = d.echoes ∧
        d'.echoesMatch = d.echoesMatch)
    (hb : ∀ q, ∀ e ∈ r'.bufferedEchoes q, e ∈ r.bufferedEchoes q) : Echoed took sent r' := by
  refine ⟨fun i d' h' => ?_, fun i d' h' q hq => ?_, fun i d' h' hm q hq => ?_,
    fun q e he => h.buffered q e (hb q e he)⟩
  · rcases hd i d' h' with hn | ⟨d, hd, -, he, -⟩
    · rw [hn]; exact List.nodup_nil
    · rw [he]; exact h.nodup i d hd
  · rcases hd i d' h' with hn | ⟨d, hd, -, he, -⟩
    · rw [hn] at hq; cases hq
    · rw [ho]; exact h.others i d hd q (he ▸ hq)
  · rcases hd i d' h' with hn | ⟨d, hd, hmsg, he, hma⟩
    · rw [hn] at hq; cases hq
    · rw [hmsg]; exact h.echoed i d hd (hma ▸ hm) q (he ▸ hq)

/-- Nothing happens to the echoes of the messages of the tail. -/
theorem of_tail (h : Echoed took sent r) (ho : r'.others = r.others)
    (ht : r'.msgTail = r.msgTail) (hb : ∀ q, ∀ e ∈ r'.bufferedEchoes q, e ∈ r.bufferedEchoes q) :
    Echoed took sent r' :=
  h.congr ho (fun _ d hd => .inr ⟨d, ht ▸ hd, rfl, rfl, rfl⟩) hb

/-- A change to a message of the tail that leaves its echoes. -/
theorem modify (h : Echoed took sent r) (i : Index) (f : MessageData → MessageData)
    (hf : ∀ d, (f d).message = d.message ∧ (f d).echoes = d.echoes ∧
      (f d).echoesMatch = d.echoesMatch) :
    Echoed took sent { r with msgTail := r.msgTail.modify i f } := by
  refine h.congr rfl (fun k d' hd' => .inr ?_) fun _ _ he => he
  simp only [OrdMap.find?_modify] at hd'
  split at hd'
  · next hk =>
      obtain ⟨d, hd, rfl⟩ := Option.map_eq_some_iff.mp hd'
      exact ⟨d, hk ▸ hd, hf d⟩
  · exact ⟨d', hd', rfl, rfl, rfl⟩

/-- An echo is noted for the message it meets. -/
theorem echo (h : Echoed took sent r) {i : Index} {q : ProcId} {e : Buffer} (hq : q ∈ r.others)
    (hf : ∀ d, r.msgTail.find? i = some d → echoMatches cr d.message e = true →
      took q d.message) (he : r.echo cr i q e = .ok r') : Echoed took sent r' := by
  unfold Receiver.echo at he
  split at he
  · cases he; exact h
  · next d hd =>
      simp only [MessageData.echoed] at he
      split at he
      · cases he
      · next hnew =>
          cases he
          have key : ∀ k d', (r.msgTail.modify i fun _ =>
              { d with
                echoesMatch := d.echoesMatch && echoMatches cr d.message e
                echoes := q :: d.echoes }).find? k = some d' →
              d' = { d with
                echoesMatch := d.echoesMatch && echoMatches cr d.message e
                echoes := q :: d.echoes } ∨ r.msgTail.find? k = some d' := by
            intro k d' hk
            rw [OrdMap.find?_modify] at hk
            split at hk
            · rw [hd, Option.map_some] at hk; cases hk; exact .inl rfl
            · exact .inr hk
          refine ⟨fun k d' hk => ?_, fun k d' hk p hp => ?_, fun k d' hk hm p hp => ?_,
            h.buffered⟩
          · rcases key k d' hk with rfl | hk
            · exact List.nodup_cons.mpr ⟨hnew, h.nodup i d hd⟩
            · exact h.nodup k d' hk
          · rcases key k d' hk with rfl | hk
            · rcases List.mem_cons.mp hp with rfl | hp
              · exact hq
              · exact h.others i d hd p hp
            · exact h.others k d' hk p hp
          · rcases key k d' hk with rfl | hk
            · obtain ⟨hma, hme⟩ := Bool.and_eq_true_iff.mp hm
              rcases List.mem_cons.mp hp with rfl | hp
              · exact hf d hd hme
              · exact h.echoed i d hd hma p hp
            · exact h.echoed k d' hk hm p hp

theorem replayEcho (h : Echoed took sent r) {i : Index} {q : ProcId} (hq : q ∈ r.others)
    (hf : ∀ d, r.msgTail.find? i = some d → ∀ e ∈ r.bufferedEchoes q, index e.bytes = i →
      echoMatches cr d.message e = true → took q d.message)
    (he : r.replayEcho cr i q = .ok r') : Echoed took sent r' := by
  have hsub : ∀ es, (∀ e ∈ es, e ∈ r.bufferedEchoes q) → ∀ p,
      ∀ e ∈ Function.update r.bufferedEchoes q es p, e ∈ r.bufferedEchoes p := by
    intro es hes p e hp
    by_cases hpq : p = q
    · subst hpq; rw [Function.update_self] at hp; exact hes e hp
    · rw [Function.update_of_ne hpq] at hp; exact hp
  unfold Receiver.replayEcho at he
  split at he
  · cases he
    exact h.of_tail rfl rfl (hsub [] fun _ h => nomatch h)
  · next e es hes =>
      have hmem : ∀ x ∈ e :: es, x ∈ r.bufferedEchoes q := fun x hx =>
        (List.dropWhile_sublist _).mem (hes ▸ hx)
      split at he
      · next hi =>
          have h' : Echoed took sent { r with
              bufferedEchoes := Function.update r.bufferedEchoes q es } :=
            h.of_tail rfl rfl (hsub es fun x hx => hmem x (List.mem_cons_of_mem _ hx))
          exact h'.echo hq (fun d hd => hf d hd e (hmem e List.mem_cons_self) hi) he
      · cases he
        exact h.of_tail rfl rfl (hsub _ hmem)

/-- What replaying leaves alone: the messages, and the echoes still buffered. -/
theorem message_replayEcho {i : Index} {q : ProcId} (he : r.replayEcho cr i q = .ok r') :
    (∀ k d', r'.msgTail.find? k = some d' →
      ∃ d, r.msgTail.find? k = some d ∧ d'.message = d.message) ∧
    ∀ p, p ≠ q → r'.bufferedEchoes p = r.bufferedEchoes p := by
  have hs := Receiver.sameSlow_replayEcho he
  refine ⟨fun k d' hk => ?_, fun p hp => ?_⟩
  · have hh := (hs.held k).symm.trans (Receiver.held_of_find? hk)
    obtain ⟨d, hd, hdd⟩ := Option.map_eq_some_iff.mp hh
    exact ⟨d, hd, (congrArg Held.message hdd).symm⟩
  · unfold Receiver.replayEcho at he
    split at he
    · cases he; exact Function.update_of_ne hp ..
    · split at he
      · unfold Receiver.echo at he
        split at he
        · cases he; exact Function.update_of_ne hp ..
        · simp only at he
          split at he
          · cases he; exact Function.update_of_ne hp ..
          · cases he
      · cases he; exact Function.update_of_ne hp ..

theorem replayEchoes {i : Index} {qs : List ProcId} (hn : qs.Nodup)
    (h : Echoed took sent r) (hq : ∀ q ∈ qs, q ∈ r.others)
    (hf : ∀ d, r.msgTail.find? i = some d → ∀ q ∈ qs, ∀ e ∈ r.bufferedEchoes q,
      index e.bytes = i → echoMatches cr d.message e = true → took q d.message)
    (he : r.replayEchoes cr i qs = .ok r') : Echoed took sent r' := by
  induction qs generalizing r with
  | nil => cases he; exact h
  | cons q qs ih =>
      obtain ⟨hnq, hnqs⟩ := List.nodup_cons.mp hn
      obtain ⟨r₁, h₁, h₂⟩ := bind_eq_ok.mp he
      have hr₁ := h.replayEcho (hq q List.mem_cons_self)
        (fun d hd e hm => hf d hd q List.mem_cons_self e hm) h₁
      obtain ⟨hmsg, hbuf⟩ := message_replayEcho h₁
      have ho := (Receiver.sameSlow_replayEcho h₁).others
      refine ih hnqs hr₁ (fun p hp => ho ▸ hq p (List.mem_cons_of_mem _ hp))
        (fun d' hd' p hp e hm hi hma => ?_) h₂
      obtain ⟨d, hd, hdd⟩ := hmsg i d' hd'
      rw [hbuf p fun hpq => hnq (hpq ▸ hp)] at hm
      rw [hdd] at hma ⊢
      exact hf d hd p (List.mem_cons_of_mem _ hp) e hm hi hma

/-- **One operation.**  An echo is handled, or it is buffered and met by the message it is
for. -/
theorem handle {inp : Input} (hn : r.others.Nodup) (h : Echoed took sent r)
    (ha : ∀ q e, inp = .echo q e → q ∈ r.others → headerSize ≤ e.bytes.length → sent q e)
    (hm : ∀ q e, inp = .echo q e → q ∈ r.others → headerSize ≤ e.bytes.length →
      ∀ d, r.msgTail.find? (index e.bytes) = some d → echoMatches cr d.message e = true →
        took q d.message)
    (hb : ∀ m, inp = .message m → ∀ q ∈ r.others, ∀ e ∈ r.bufferedEchoes q,
      index e.bytes = index m → echoMatches cr m e = true → took q m)
    (hh : r.handle cr inp = .ok r') : Echoed took sent r' := by
  cases inp with
  | message m =>
      rcases Receiver.handleMessage_cases hh with rfl | ⟨-, hh⟩
      · exact h
      · have ht : Echoed took sent (r.take m) := by
          refine h.congr rfl (fun i d hd => ?_) fun _ _ he => he
          rcases Receiver.find?_take hd with ⟨-, rfl⟩ | ⟨-, hd⟩
          · exact .inl rfl
          · exact .inr ⟨d, hd, rfl, rfl, rfl⟩
        refine ht.replayEchoes hn (fun _ hq => hq) (fun d hd q hq e he hi hma => ?_) hh
        have hdm : d.message = m := by
          rcases Receiver.held_take (Receiver.held_of_find? hd) with ⟨-, hd⟩ | ⟨hne, -⟩
          · exact congrArg Held.message hd
          · exact absurd rfl hne
        rw [hdm] at hma ⊢
        exact hb m rfl q hq e he hi hma
  | echo q e =>
      simp only [Receiver.handle] at hh
      split at hh
      · next hq =>
          unfold Receiver.handleEcho at hh
          split at hh
          · cases hh; exact h
          · rename_i hl
            have hrec : Echoed took sent
                { r with
                  echoed := Function.update r.echoed q (r.echoed q ++ [e]) } :=
              h.of_tail rfl rfl fun _ _ he => he
            simp only at hh
            split at hh
            · cases hh; exact hrec
            · split at hh
              · exact hrec.echo hq (hm q e rfl hq (Nat.not_lt.mp hl)) hh
              · split at hh
                · cases hh
                · cases hh
                  refine ⟨hrec.nodup, hrec.others, hrec.echoed, fun x e' he' => ?_⟩
                  by_cases hx : x = q
                  · subst hx
                    simp only [Function.update_self] at he'
                    rcases List.mem_append.mp (List.mem_of_mem_drop he') with he' | he'
                    · exact h.buffered x e' he'
                    · exact List.mem_singleton.mp he' ▸ ha x e rfl hq (Nat.not_lt.mp hl)
                  · simp only [Function.update_of_ne hx] at he'
                    exact h.buffered x e' he'
      · cases hh; exact h
  | signature i sig =>
      rcases Receiver.handleSignature_cases hh with rfl | ⟨d, -, -, rfl⟩
      · exact h
      · exact (h.modify i (fun d => { d with signature := some sig })
          fun _ => ⟨rfl, rfl, rfl⟩).of_tail rfl rfl fun _ _ he => he
  | finishCheck k =>
      cases hh
      rcases Receiver.finishCheck_cases cr r k with he | ⟨ck, -, he⟩
      · rw [he]; exact h
      · rw [he]; exact h.of_tail rfl rfl fun _ _ he => he
  | dropCheck k => cases hh; exact h.of_tail rfl rfl fun _ _ he => he
  | pollSignatureVerification =>
      rcases Receiver.pollSignatureVerification_cases hh with
        rfl | ⟨v, vs, -, ⟨-, rfl⟩ | ⟨d, -, ⟨-, -, hw⟩ | ⟨q, -, -, rfl⟩⟩⟩
      · exact h
      · exact h.of_tail rfl rfl fun _ _ he => he
      · obtain ⟨sig, -, -, -, rfl⟩ := Receiver.write_cases hw
        exact h.of_tail rfl rfl fun _ _ he => he
      · exact (h.modify v.index (·.checkedAReceiver q) fun _ => ⟨rfl, rfl, rfl⟩).of_tail
          rfl rfl fun _ _ he => he
  | writeCompletion slot since =>
      cases hh
      rcases Receiver.pollWriteCompletion_cases r slot since with
        he | ⟨i, -, ⟨-, he⟩ | ⟨d, -, he⟩⟩
      · rw [he]; exact h
      · rw [he]; exact h.of_tail rfl rfl fun _ _ he => he
      · rw [he]; exact h.of_tail rfl rfl fun _ _ he => he
  | readCompletion k reg =>
      rcases Receiver.pollReadCompletion_cases hh with
        rfl | ⟨rd, -, -, ⟨-, rfl⟩ | ⟨d, -, ⟨-, rfl⟩ | ⟨-, rfl⟩⟩⟩
      · exact h
      · exact h.of_tail rfl rfl fun _ _ he => he
      · exact (h.modify rd.index (·.checkedAReceiver rd.replica) fun _ => ⟨rfl, rfl, rfl⟩).of_tail
          rfl rfl fun _ _ he => he
      · exact h.of_tail rfl rfl fun _ _ he => he
  | poll =>
      cases hh
      rcases Receiver.poll_cases r with he | ⟨i, d, -, -, he⟩
      · rw [he]; exact h
      · rw [he]
        refine h.congr rfl (fun k d' hd' => .inr ⟨d', ?_, rfl, rfl, rfl⟩) fun _ _ he => he
        simp only [OrdMap.find?_erase] at hd'
        split at hd'
        · cases hd'
        · exact hd'
  | toggleSlowPath b => cases hh; exact h.of_tail rfl rfl fun _ _ he => he

/-- As many echoes as other receivers are the echoes of all of them. -/
theorem mem_echoes (h : Echoed took sent r) {i : Index} {d : MessageData} {q : ProcId}
    (hd : r.msgTail.find? i = some d) (hlen : d.echoes.length = r.others.length)
    (hq : q ∈ r.others) : q ∈ d.echoes :=
  ((List.subperm_of_subset (h.nodup i d hd) (h.others i d hd)).perm_of_length_le
    hlen.ge).mem_iff.mpr hq

end Echoed

/-! ### What an echo that passes was sent for -/

/-- An echo that passes the test of `m`, sent for a message that it does not look like `m` for, has
the hash of `m`. -/
theorem blake3_eq_of_echoMatches {m m' : Bytes} {e : Buffer} (hma : echoMatches cr m e = true)
    (he : e.bytes = echoOf cr m') (hno : ¬ Config.Confusable cr m m') :
    cr.blake3 m' = cr.blake3 m := by
  by_cases hmm : m = m'
  · rw [hmm]
  · have hno := fun h => hno ⟨hmm, h⟩
    unfold echoMatches at hma
    split_ifs at hma hno with hs
    · exact absurd (he ▸ Buffer.prefix_of_eq hma) hno
    · obtain ⟨-, hdata⟩ := Bool.and_eq_true_iff.mp hma
      rw [decide_eq_true_eq, he] at hdata
      unfold echoOf at hdata
      split_ifs at hdata with hs'
      · exact absurd ⟨hs', hdata⟩ hno
      · rwa [data, headerSize, List.drop_left' (length_le 8 _)] at hdata

/-! ### The fast path of a correct receiver -/

namespace Config

variable {c : Config} {s s' : System} {p q : ProcId}

/-- If `q` is correct, it took `m`, or a message of the same hash. -/
def Took (c : Config) (s : System) (q : ProcId) (m : Bytes) : Prop :=
  c.correct q = true → ∃ m' ∈ (s q).received, c.crypto.blake3 m' = c.crypto.blake3 m

/-- If `q` is correct, it sent the echo. -/
def Sent (c : Config) (s : System) (q : ProcId) (e : Buffer) : Prop :=
  c.correct q = true → ∃ m ∈ (s q).received, e.bytes = echoOf c.crypto m

theorem received_step {l : ProcId × Input} (hs : c.Step s l s') (q : ProcId) {m : Bytes}
    (hm : m ∈ (s q).received) : m ∈ (s' q).received := by
  obtain ⟨-, -, -, r, hr, rfl⟩ := step_cases hs
  by_cases hq : q = l.1
  · subst hq
    rw [Function.update_self]
    exact (Receiver.Grows.handle hr).received m hm
  · rw [Function.update_of_ne hq]
    exact hm

/-- An echo that matches tells what was taken in. -/
theorem took_of_tells {m : Bytes} {e : Buffer} (hsent : c.Sent s q e)
    (ht : c.correct q = true → c.Tells (s q) m e)
    (hm : echoMatches c.crypto m e = true) : c.Took s q m := by
  intro hq
  obtain ⟨m', hm', he⟩ := hsent hq
  exact ⟨m', hm', blake3_eq_of_echoMatches hm he (ht hq m' hm' he)⟩

theorem echoed_handle {r : Receiver} {inp : Input} (hs : c.Sound (s p) p)
    (h : Echoed (c.Took s) (c.Sent s) (s p)) (ha : c.Allowed s p inp) (hg : c.Good s (p, inp))
    (hh : (s p).handle c.crypto inp = .ok r) : Echoed (c.Took s) (c.Sent s) r := by
  refine h.handle (hs.others ▸ c.nodup.erase p) (fun q e hin _ _ => ?_)
    (fun q e hin _ _ d hd hma => ?_) (fun m hin q hq e he hi hma => ?_) hh
  · subst hin
    exact ha
  · subst hin
    exact took_of_tells ha (fun hc => hg hc d hd) hma
  · subst hin
    exact took_of_tells (h.buffered q e he) (fun hc => hg q hq hc e he hi) hma

theorem echoed_step {l : ProcId × Input} (hs : ∀ p, c.Sound (s p) p)
    (h : ∀ p, Echoed (c.Took s) (c.Sent s) (s p)) (hg : c.Good s l) (hst : c.Step s l s')
    (p : ProcId) : Echoed (c.Took s') (c.Sent s') (s' p) := by
  have hmono : ∀ r, Echoed (c.Took s) (c.Sent s) r → Echoed (c.Took s') (c.Sent s') r :=
    fun r hr => hr.mono
      (fun q m ht hq =>
        let ⟨m', hm', hb⟩ := ht hq
        ⟨m', received_step hst q hm', hb⟩)
      fun q e he hq =>
        let ⟨m, hm, hb⟩ := he hq
        ⟨m, received_step hst q hm, hb⟩
  obtain ⟨-, -, ha, r, hr, heq⟩ := step_cases hst
  by_cases hp : p = l.1
  · subst hp
    have := hmono r (echoed_handle (hs l.1) (h l.1) ha hg hr)
    rw [heq, Function.update_self, ← heq]
    exact this
  · have := hmono (s p) (h p)
    rw [heq, Function.update_of_ne hp, ← heq]
    exact this

/-- **The fast path.**  All the others echoed a message and every echo matched: every correct
one took it. -/
theorem took_of_echoes {r : Receiver} (h : Echoed (c.Took s) (c.Sent s) r) {i : Index}
    {d : MessageData} (hd : r.msgTail.find? i = some d)
    (hlen : d.echoes.length = r.others.length) (hma : d.echoesMatch = true)
    (hq : q ∈ r.others) : c.Took s q d.message :=
  h.echoed i d hd hma q (h.mem_echoes hd hlen hq)

end Config

end Ubft.Broadcast
