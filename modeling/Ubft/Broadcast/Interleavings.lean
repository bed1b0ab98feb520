import Ubft.Broadcast.Pooling
import Ubft.Broadcast.Records
import Ubft.Broadcast.System

/-!
# Broadcast — echoes and messages in any order

The echoes noted for a message of the tail are those that arrived for it, before the message or
after it: an echo ahead of the messages waits in the buffer of its sender (`Waiting`) until its
message is taken, and is noted then (`Noted`).  So two interleavings of the same messages and the
same echoes end with the same echoes noted (`run_agree`), provided that each receiver echoes in
order and never more than `tail` messages ahead (`Orderly`), and that no echo is a proper beginning
of its message (`ConclusiveRun`): whether such an echo matches depends on what its buffer held
before, hence on the order (`pollable_differ`).
-/

namespace Ubft.Broadcast

variable {cr : Crypto} {r r' : Receiver}

/-! ### Runs -/

namespace Receiver

/-- `i` comes after the messages taken. -/
def Ahead (r : Receiver) (i : Index) : Prop := ∀ m ∈ r.received, index m < i

instance (r : Receiver) : DecidablePred r.Ahead := fun _ => inferInstanceAs (Decidable (∀ m ∈ _, _))

/-- Messages arrive in order; each receiver echoes in order, an index at most once, and at most
`tail` of its echoes are ahead of the messages. -/
def Orderly (r : Receiver) : Input → Prop
  | .message m => headerSize ≤ m.length ∧ r.Ahead (index m)
  | .echo q e => headerSize ≤ e.bytes.length ∧
      (∀ e' ∈ r.echoed q, index e'.bytes < index e.bytes) ∧
      (r.echoed q ++ [e]).countP (fun e => r.Ahead (index e.bytes)) ≤ r.tail
  | _ => True

instance (r : Receiver) : DecidablePred r.Orderly
  | .message _ => inferInstanceAs (Decidable (_ ∧ _))
  | .echo _ _ => inferInstanceAs (Decidable (_ ∧ (∀ e' ∈ _, _) ∧ _))
  | .signature _ _ | .finishCheck _ | .dropCheck _ | .pollSignatureVerification
  | .writeCompletion _ _ | .readCompletion _ _ | .poll | .toggleSlowPath _ =>
    inferInstanceAs (Decidable True)

/-- A receiver that did nothing. -/
def Init (r : Receiver) : Prop := ∃ tail others, 0 < tail ∧ others.Nodup ∧ r = { tail, others }

/-- The step relation of a receiver. -/
def Step (cr : Crypto) (r : Receiver) (inp : Input) (r' : Receiver) : Prop :=
  r.handle cr inp = .ok r'

end Receiver

namespace Pooled

/-- Every arrival is orderly when it is handled. -/
def OrderlyRun (cr : Crypto) : Pooled → List Arrival → Prop
  | _, [] => True
  | s, a :: as => (∀ inp ∈ s.input a, s.recv.Orderly inp) ∧
      ∀ s' ∈ (s.handle cr a).toOption, OrderlyRun cr s' as

instance decidableOrderlyRun (cr : Crypto) :
    (s : Pooled) → (as : List Arrival) → Decidable (OrderlyRun cr s as)
  | _, [] => inferInstanceAs (Decidable True)
  | s, a :: as =>
    have := fun s' => decidableOrderlyRun cr s' as
    inferInstanceAs (Decidable ((∀ inp ∈ s.input a, s.recv.Orderly inp) ∧
      ∀ s' ∈ (s.handle cr a).toOption, OrderlyRun cr s' as))

end Pooled

namespace Receiver

/-- No echo that arrives is a proper beginning of a message below `hashThreshold` that it is
compared with. -/
def ConclusiveRun (r : Receiver) (as : List Arrival) : Prop :=
  ∀ q ∈ r.others, ∀ echo ∈ as.filterMap (Arrival.echo? q),
    (∀ d ∈ r.msgTail.find? (index echo), Conclusive d.message echo) ∧
      ∀ m ∈ as.filterMap Arrival.message?, index m = index echo → Conclusive m echo

instance (r : Receiver) : DecidablePred r.ConclusiveRun := fun as =>
  inferInstanceAs (Decidable (∀ q ∈ _, ∀ echo ∈ as.filterMap (Arrival.echo? q),
    (∀ d ∈ _, _) ∧ ∀ m ∈ as.filterMap Arrival.message?, _ → _))

/-! ### What is known of the echoes

While message `i` is taken, the echoes of `pend` for it are still to be replayed. -/

/-- An echo ahead of the messages waits in its sender's buffer. -/
structure Waiting (i : Index) (pend : List ProcId) (r : Receiver) : Prop where
  sorted : ∀ q, (r.echoed q).Pairwise fun e e' => index e.bytes < index e'.bytes
  sublist : ∀ q, (r.bufferedEchoes q).Sublist (r.echoed q)
  buffered : ∀ q, ∀ e ∈ r.echoed q, r.Ahead (index e.bytes) ∨ q ∈ pend ∧ index e.bytes = i →
    e ∈ r.bufferedEchoes q

/-- The echoes noted for a message are those that arrived for it. -/
structure Noted (cr : Crypto) (i : Index) (pend : List ProcId) (r : Receiver) : Prop where
  nodup : ∀ k d, r.msgTail.find? k = some d → d.echoes.Nodup
  mem : ∀ k d, r.msgTail.find? k = some d → ∀ q, q ∈ d.echoes ↔
    q ∈ r.others ∧ (k = i → q ∉ pend) ∧ ∃ e ∈ r.echoed q, index e.bytes = k
  matched : ∀ k d, r.msgTail.find? k = some d → (d.echoesMatch = true ↔
    ∀ q ∈ r.others, (k = i → q ∉ pend) → ∀ e ∈ r.echoed q, index e.bytes = k →
      echoMatches cr d.message e = true)

/-- Between two inputs. -/
structure Tracked (cr : Crypto) (r : Receiver) : Prop where
  distinct : r.others.Nodup
  fifo : r.Fifo
  latest : ∀ l ∈ r.latestPolledMessage, ∃ m ∈ r.received, index m = l
  waiting : r.Waiting 0 []
  noted : r.Noted cr 0 []

/-- What arrived for a message of the tail is noted, what is ahead waits. -/
structure NoneLost (r : Receiver) : Prop where
  noted : ∀ k d, r.msgTail.find? k = some d → ∀ q ∈ r.others, ∀ e ∈ r.echoed q,
    index e.bytes = k → q ∈ d.echoes
  waits : ∀ q ∈ r.others, ∀ e ∈ r.echoed q, r.Ahead (index e.bytes) → e ∈ r.bufferedEchoes q

/-- The same messages, with the same echoes. -/
structure Agree (r₁ r₂ : Receiver) : Prop where
  held : ∀ k, r₁.held k = r₂.held k
  echoes : ∀ k d₁ d₂, r₁.msgTail.find? k = some d₁ → r₂.msgTail.find? k = some d₂ →
    ∀ q, q ∈ d₁.echoes ↔ q ∈ d₂.echoes
  pollable : ∀ k d₁ d₂, r₁.msgTail.find? k = some d₁ → r₂.msgTail.find? k = some d₂ →
    d₁.pollable r₁ = d₂.pollable r₂

/-! ### Replaying -/

/-- What is left of a buffer in order when the echoes below `i` are popped. -/
theorem mem_dropWhile_lt {i : Index} {l : List Buffer} {e : Buffer}
    (hl : l.Pairwise fun e e' => index e.bytes < index e'.bytes) :
    e ∈ l.dropWhile (fun e => decide (index e.bytes < i)) ↔ e ∈ l ∧ i ≤ index e.bytes := by
  induction l with
  | nil => simp
  | cons a l ih =>
      obtain ⟨ha, hl⟩ := List.pairwise_cons.mp hl
      by_cases hai : index a.bytes < i
      · rw [List.dropWhile_cons_of_pos (by exact decide_eq_true hai), ih hl, List.mem_cons]
        refine ⟨fun ⟨h, hi⟩ => ⟨.inr h, hi⟩, fun ⟨h, hi⟩ => ⟨h.resolve_left ?_, hi⟩⟩
        rintro rfl
        exact absurd hai (Nat.not_lt.mpr hi)
      · rw [List.dropWhile_cons_of_neg (by simpa using hai)]
        refine ⟨fun h => ⟨h, ?_⟩, fun h => h.1⟩
        rcases List.mem_cons.mp h with rfl | h
        · exact Nat.not_lt.mp hai
        · exact (Nat.not_lt.mp hai).trans (ha e h).le

namespace Noted

variable {i : Index} {q : ProcId} {pend : List ProcId}

/-- The buffers are no concern of what is noted. -/
theorem buffers (h : r.Noted cr i pend) (b : ProcId → List Buffer) :
    ({ r with bufferedEchoes := b } : Receiver).Noted cr i pend := ⟨h.nodup, h.mem, h.matched⟩

/-- Nothing of `q` arrived for the message taken. -/
theorem skip (h : r.Noted cr i (q :: pend)) (hno : ∀ e ∈ r.echoed q, index e.bytes ≠ i) :
    r.Noted cr i pend := by
  have key : ∀ {k p}, (∃ e ∈ r.echoed p, index e.bytes = k) →
      ((k = i → p ∉ q :: pend) ↔ (k = i → p ∉ pend)) := by
    rintro k p ⟨e, he, rfl⟩
    refine forall_congr' fun hk => not_congr ⟨fun hp => ?_, List.mem_cons_of_mem q⟩
    rcases List.mem_cons.mp hp with rfl | hp
    · exact absurd hk (hno e he)
    · exact hp
  refine ⟨h.nodup, fun k d hd p => ?_, fun k d hd => ?_⟩
  · rw [h.mem k d hd p]
    exact and_congr_right fun _ => and_congr_left fun he => key he
  · rw [h.matched k d hd]
    exact forall_congr' fun p => forall_congr' fun _ => ⟨fun hm hk e he hi =>
      hm ((key ⟨e, he, hi⟩).mpr hk) e he hi, fun hm hk e he hi =>
      hm ((key ⟨e, he, hi⟩).mp hk) e he hi⟩

/-- The echo of `q` is noted. -/
theorem note (h : r.Noted cr i (q :: pend)) (hq : q ∈ r.others) (hqp : q ∉ pend) {e : Buffer}
    (he : e ∈ r.echoed q) (hi : index e.bytes = i)
    (huniq : ∀ e' ∈ r.echoed q, index e'.bytes = i → e' = e) {d : MessageData}
    (hd : r.msgTail.find? i = some d) :
    ∃ r', r.echo cr i q e = .ok r' ∧ r'.Noted cr i pend ∧ r'.bufferedEchoes = r.bufferedEchoes := by
  have hnew : q ∉ d.echoes := fun hm => ((h.mem i d hd q).mp hm).2.1 rfl List.mem_cons_self
  refine ⟨{ r with msgTail := r.msgTail.modify i fun _ => { d with
    echoesMatch := d.echoesMatch && echoMatches cr d.message e
    echoes := q :: d.echoes } }, ?_, ?_, rfl⟩
  · unfold Receiver.echo
    simp only [hd, MessageData.echoed, if_neg hnew, if_true]
  · have key : ∀ {k d'}, (r.msgTail.modify i fun _ => { d with
        echoesMatch := d.echoesMatch && echoMatches cr d.message e
        echoes := q :: d.echoes }).find? k = some d' →
        k = i ∧ d' = { d with
          echoesMatch := d.echoesMatch && echoMatches cr d.message e
          echoes := q :: d.echoes } ∨ k ≠ i ∧ r.msgTail.find? k = some d' := by
      intro k d' hk
      rw [OrdMap.find?_modify] at hk
      split at hk
      · next hki => rw [hd, Option.map_some] at hk; cases hk; exact .inl ⟨hki, rfl⟩
      · next hki => exact .inr ⟨hki, hk⟩
    refine ⟨fun k d' hk => ?_, fun k d' hk p => ?_, fun k d' hk => ?_⟩
    · rcases key hk with ⟨rfl, rfl⟩ | ⟨-, hk⟩
      · exact List.nodup_cons.mpr ⟨hnew, h.nodup k d hd⟩
      · exact h.nodup k d' hk
    · rcases key hk with ⟨rfl, rfl⟩ | ⟨hki, hk⟩
      · simp only [List.mem_cons, h.mem k d hd p, forall_true_left, not_or]
        constructor
        · rintro (rfl | ⟨hp, ⟨-, hpp⟩, hex⟩)
          · exact ⟨hq, hqp, e, he, hi⟩
          · exact ⟨hp, hpp, hex⟩
        · rintro ⟨hp, hpp, hex⟩
          by_cases hpq : p = q
          · exact .inl hpq
          · exact .inr ⟨hp, ⟨hpq, hpp⟩, hex⟩
      · rw [h.mem k d' hk p]
        exact and_congr_right fun _ => and_congr_left fun _ =>
          ⟨fun _ hk' => absurd hk' hki, fun _ hk' => absurd hk' hki⟩
    · rcases key hk with ⟨rfl, rfl⟩ | ⟨hki, hk⟩
      · simp only [Bool.and_eq_true, h.matched k d hd, forall_true_left, List.mem_cons, not_or]
        constructor
        · rintro ⟨hm, hme⟩ p hp hpp e' he' hi'
          by_cases hpq : p = q
          · subst hpq
            rw [huniq e' he' hi']
            exact hme
          · exact hm p hp ⟨hpq, hpp⟩ e' he' hi'
        · exact fun hm => ⟨fun p hp hpp => hm p hp hpp.2, hm q hq hqp e he hi⟩
      · rw [h.matched k d' hk]
        exact forall_congr' fun p => forall_congr' fun _ =>
          ⟨fun hm _ => hm fun hk' => absurd hk' hki, fun hm _ => hm fun hk' => absurd hk' hki⟩

end Noted

variable {i : Index} {q : ProcId} {pend : List ProcId}

/-- A receiver echoes a message once. -/
theorem Waiting.unique (hw : r.Waiting i pend) {e e' : Buffer} (he : e ∈ r.echoed q)
    (he' : e' ∈ r.echoed q) (hi : index e'.bytes = index e.bytes) : e' = e := by
  by_contra hne
  have : Std.Symm fun e e' : Buffer => index e.bytes ≠ index e'.bytes := ⟨fun _ _ h => h.symm⟩
  exact ((hw.sorted q).imp ne_of_lt).forall he' he hne hi

/-- What is buffered from `q`, once the echoes up to `i` are gone. -/
theorem Waiting.drop (hw : r.Waiting i (q :: pend)) (hi : ∃ m ∈ r.received, index m = i)
    {es : List Buffer} (hsub : es.Sublist (r.bufferedEchoes q))
    (hes : ∀ e ∈ r.bufferedEchoes q, i < index e.bytes → e ∈ es) (hqp : q ∉ pend) :
    ({ r with bufferedEchoes := Function.update r.bufferedEchoes q es } : Receiver).Waiting
      i pend := by
  refine ⟨hw.sorted, fun p => ?_, fun p e he ha => ?_⟩
  · by_cases hp : p = q
    · subst hp
      simp only [Function.update_self]
      exact hsub.trans (hw.sublist p)
    · simp only [Function.update_of_ne hp]
      exact hw.sublist p
  · have hbuf := hw.buffered p e he (ha.imp_right fun h => ⟨List.mem_cons_of_mem _ h.1, h.2⟩)
    by_cases hp : p = q
    · subst hp
      simp only [Function.update_self]
      obtain ⟨m, hm, hmi⟩ := hi
      exact hes e hbuf (hmi ▸ (ha.resolve_right fun h => hqp h.1) m hm)
    · simp only [Function.update_of_ne hp]
      exact hbuf

/-- **Replaying one buffer.** -/
theorem replayEcho_ok (hw : r.Waiting i (q :: pend)) (hn : r.Noted cr i (q :: pend))
    (hq : q ∈ r.others) (hqp : q ∉ pend) (hi : ∃ m ∈ r.received, index m = i)
    (hd : ∃ h, r.held i = some h) :
    ∃ r', r.replayEcho cr i q = .ok r' ∧ r'.Waiting i pend ∧ r'.Noted cr i pend := by
  obtain ⟨h, hh⟩ := hd
  obtain ⟨d, hd, -⟩ := Option.map_eq_some_iff.mp hh
  have hsort := (hw.sorted q).sublist (hw.sublist q)
  have hmem := fun e => mem_dropWhile_lt (i := i) (e := e) hsort
  have hdrop : ((r.bufferedEchoes q).dropWhile fun e => decide (index e.bytes < i)).Sublist
    (r.bufferedEchoes q) := List.dropWhile_sublist _
  have arrived : ∀ e ∈ r.echoed q, index e.bytes = i →
      e ∈ (r.bufferedEchoes q).dropWhile fun e => decide (index e.bytes < i) := fun e he hei =>
    (hmem e).mpr ⟨hw.buffered q e he (.inr ⟨List.mem_cons_self, hei⟩), hei.ge⟩
  unfold replayEcho
  split
  · next hnil =>
      rw [hnil] at hmem arrived
      exact ⟨_, rfl, hw.drop hi (List.nil_sublist _)
        (fun e he hlt => (hmem e).mpr ⟨he, hlt.le⟩) hqp,
        (hn.skip fun e he hei => nomatch arrived e he hei).buffers _⟩
  · next e es hes =>
      rw [hes] at hmem hdrop arrived
      have htail := (List.pairwise_cons.mp (hsort.sublist hdrop)).1
      split
      · next hei =>
          have he := (hw.sublist q).mem ((hmem e).mp List.mem_cons_self).1
          have hw' := hw.drop hi ((List.sublist_cons_self ..).trans hdrop)
            (fun x hx hlt => ((List.mem_cons.mp ((hmem x).mpr ⟨hx, hlt.le⟩)).resolve_left fun hxe =>
              absurd (hxe ▸ hlt) (hei ▸ lt_irrefl _))) hqp
          obtain ⟨r', hr', hno, hb⟩ := (hn.buffers (Function.update r.bufferedEchoes q es)).note
            hq hqp he hei
            (fun e' he' hi' => hw.unique he he' (hi'.trans hei.symm)) hd
          have hs := echoed_echo hr'
          have hss := sameSlow_echo hr'
          refine ⟨r', hr', ⟨fun p => ?_, fun p => ?_, fun p x hx ha => ?_⟩, hno⟩
          · rw [hs]; exact hw'.sorted p
          · rw [hs, hb]; exact hw'.sublist p
          · rw [hb]
            rw [hs] at hx
            refine hw'.buffered p x hx (ha.imp_left fun h m hm => h m ?_)
            rw [hss.received]
            exact hm
      · next hei =>
          refine ⟨_, rfl, hw.drop hi hdrop (fun x hx hlt => (hmem x).mpr ⟨hx, hlt.le⟩) hqp,
            Noted.buffers (hn.skip fun x hx hxi => ?_) _⟩
          rcases List.mem_cons.mp (arrived x hx hxi) with rfl | hx'
          · exact hei hxi
          · have hie := ((hmem e).mp List.mem_cons_self).2
            exact absurd (htail x hx') (Nat.not_lt.mpr (hxi ▸ hie))

/-- **Replaying the buffers.** -/
theorem replayEchoes_ok {qs : List ProcId} (hnd : qs.Nodup) (hqs : ∀ q ∈ qs, q ∈ r.others)
    (hw : r.Waiting i qs) (hn : r.Noted cr i qs) (hi : ∃ m ∈ r.received, index m = i)
    (hd : ∃ h, r.held i = some h) :
    ∃ r', r.replayEchoes cr i qs = .ok r' ∧ r'.Waiting i [] ∧ r'.Noted cr i [] := by
  induction qs generalizing r with
  | nil => exact ⟨r, rfl, hw, hn⟩
  | cons q qs ih =>
      obtain ⟨hq, hnd⟩ := List.nodup_cons.mp hnd
      obtain ⟨r₁, h₁, hw₁, hn₁⟩ := replayEcho_ok hw hn (hqs q List.mem_cons_self) hq hi hd
      have hs := sameSlow_replayEcho h₁
      obtain ⟨r', h', hr'⟩ := ih hnd
        (fun p hp => hs.others ▸ hqs p (List.mem_cons_of_mem _ hp)) hw₁ hn₁
        (by rw [hs.received]; exact hi) (by rw [hs.held]; exact hd)
      exact ⟨r', bind_eq_ok.mpr ⟨r₁, h₁, h'⟩, hr'⟩

/-! ### One message -/

theorem Waiting.settle {j : Index} (h : r.Waiting i []) : r.Waiting j [] :=
  ⟨h.sorted, h.sublist, fun p e he ha => h.buffered p e he (.inl (ha.resolve_right (nomatch ·.1)))⟩

/-- No message is being taken: there is none under `i`, or none is missing. -/
theorem Noted.settle {j : Index} (h : r.Noted cr i pend)
    (hi : pend = [] ∨ r.msgTail.find? i = none) : r.Noted cr j [] := by
  have key : ∀ {k d p}, r.msgTail.find? k = some d → ((k = i → p ∉ pend) ↔ (k = j → p ∉ [])) := by
    intro k d p hk
    refine ⟨fun _ _ => List.not_mem_nil, fun _ hki hp => ?_⟩
    rcases hi with rfl | hi
    · cases hp
    · rw [hki, hi] at hk; cases hk
  refine ⟨h.nodup, fun k d hk p => ?_, fun k d hk => ?_⟩
  · rw [h.mem k d hk p, key hk]
  · rw [h.matched k d hk]
    exact forall_congr' fun p => forall_congr' fun _ => imp_congr_left (key hk)

namespace Tracked

/-- A message that is ahead is fresh. -/
theorem fresh (h : r.Tracked cr) (hi : r.Ahead i) : r.Fresh i := by
  refine ⟨fun l hl => ?_, fun k d hd => ?_⟩
  · obtain ⟨m, hm, rfl⟩ := h.latest l hl
    exact hi m hm
  · obtain ⟨hm, rfl⟩ := h.fifo.held_received k d hd
    exact hi _ hm

/-- The echoes that wait are those of the message taken. -/
theorem take (h : r.Tracked cr) {m : Bytes} (hm : r.Ahead (index m)) :
    (r.take m).Waiting (index m) r.others ∧ (r.take m).Noted cr (index m) r.others := by
  refine ⟨⟨h.waiting.sorted, h.waiting.sublist, fun q e he ha => ?_⟩, ⟨fun k d hd => ?_,
    fun k d hd q => ?_, fun k d hd => ?_⟩⟩
  · refine h.waiting.buffered q e he (.inl ?_)
    rcases ha with ha | ⟨-, hi⟩
    · exact fun m' hm' => ha m' (List.mem_append_left _ hm')
    · rw [hi]; exact hm
  · rcases find?_take hd with ⟨-, rfl⟩ | ⟨-, hd⟩
    · exact List.nodup_nil
    · exact h.noted.nodup k d hd
  · rcases find?_take hd with ⟨hk, rfl⟩ | ⟨hk, hd⟩
    · exact ⟨fun hq => (nomatch hq), fun hq => absurd hq.1 (hq.2.1 hk)⟩
    · rw [h.noted.mem k d hd q]
      exact and_congr_right fun _ => and_congr_left fun _ =>
        ⟨fun _ hki => absurd hki hk, fun _ _ => List.not_mem_nil⟩
  · rcases find?_take hd with ⟨hk, rfl⟩ | ⟨hk, hd⟩
    · exact ⟨fun _ q hq hno => absurd hq (hno hk), fun _ => rfl⟩
    · rw [h.noted.matched k d hd]
      exact forall_congr' fun q => forall_congr' fun _ =>
        ⟨fun hm _ => hm fun _ => List.not_mem_nil, fun hm _ => hm fun hki => absurd hki hk⟩

/-- The tests `handleMessage` makes of an index let the next one pass. -/
theorem handleMessage_ahead (h : r.Tracked cr) {m : Bytes} (hm : headerSize ≤ m.length)
    (ha : r.Ahead (index m)) : r.handleMessage cr m =
      if 8 < r.others.length then .error .capacity
      else (r.take m).replayEchoes cr (index m) r.others := by
  have hf := h.fresh ha
  have h₁ : ¬((r.msgTail.find? (index m)).isSome ∨ ∃ l ∈ r.latestPolledMessage, index m ≤ l) := by
    rintro (hsome | ⟨l, hl, hle⟩)
    · obtain ⟨d, hd⟩ := Option.isSome_iff_exists.mp hsome
      exact lt_irrefl _ (hf.2 _ _ (held_of_find? hd))
    · exact absurd (hf.1 l hl) (Nat.not_lt.mpr hle)
  have h₂ : ¬∃ e ∈ r.msgTail.last?, index m ≤ e.1 := by
    rintro ⟨e, he, hle⟩
    have hd := OrdMap.mem_entries.mp (List.mem_of_mem_getLast? he)
    exact absurd (hf.2 _ _ (held_of_find? hd)) (Nat.not_lt.mpr hle)
  unfold handleMessage
  exact (if_neg (Nat.not_lt.mpr hm)).trans ((if_neg h₁).trans (if_neg h₂))

/-- **A message that comes next is taken**, with the echoes that wait for it. -/
theorem message (h : r.Tracked cr) (hcap : r.others.length ≤ 8) {m : Bytes}
    (hm : headerSize ≤ m.length) (ha : r.Ahead (index m)) :
    ∃ r', r.handleMessage cr m = .ok r' ∧ r'.Tracked cr ∧ (r.take m).SameSlow r' := by
  have hf := h.fresh ha
  obtain ⟨hw, hn⟩ := h.take ha
  have hmem : ∃ m' ∈ (r.take m).received, index m' = index m :=
    ⟨m, List.mem_append_right _ List.mem_cons_self, rfl⟩
  obtain ⟨r', hr', hw', hn'⟩ : ∃ r', (r.take m).replayEchoes cr (index m) r.others = .ok r' ∧
      r'.Waiting (index m) [] ∧ r'.Noted cr (index m) [] :=
    replayEchoes_ok h.distinct (fun _ hq => hq) hw hn hmem ⟨_, held_take_self h.fifo hf⟩
  have hs := sameSlow_replayEchoes hr'
  refine ⟨r', ?_, ⟨hs.others ▸ h.distinct, hs.fifo (h.fifo.take hf), fun l hl => ?_, hw'.settle,
    hn'.settle (.inl rfl)⟩, hs⟩
  · rw [h.handleMessage_ahead hm ha, if_neg (Nat.not_lt.mpr hcap)]
    exact hr'
  · rw [hs.latestPolledMessage] at hl
    rw [hs.received]
    obtain ⟨m', hm', he⟩ := h.latest l hl
    exact ⟨m', List.mem_append_left _ hm', he⟩

end Tracked

/-! ### One echo -/

/-- An echo arrives for message `k`, after those for the messages below. -/
theorem Noted.arrive (h : r.Noted cr 0 []) {e : Buffer}
    (hlt : ∀ e' ∈ r.echoed q, index e'.bytes < index e.bytes) :
    ({ r with echoed := Function.update r.echoed q (r.echoed q ++ [e]) } : Receiver).Noted cr
      (index e.bytes) [q] := by
  have hmem : ∀ {p x}, x ∈ Function.update r.echoed q (r.echoed q ++ [e]) p ↔
      x ∈ r.echoed p ∨ p = q ∧ x = e := by
    intro p x
    by_cases hp : p = q
    · subst hp; simp
    · simp [hp]
  have key : ∀ {k p}, (k = index e.bytes → p ∉ [q]) →
      ∀ x, (x ∈ Function.update r.echoed q (r.echoed q ++ [e]) p ∧ index x.bytes = k ↔
        x ∈ r.echoed p ∧ index x.bytes = k) := by
    intro k p hk x
    rw [hmem]
    refine and_congr_left fun hx => or_iff_left ?_
    rintro ⟨rfl, rfl⟩
    exact hk hx.symm List.mem_cons_self
  have old : ∀ {k p x}, x ∈ r.echoed p → index x.bytes = k → k = index e.bytes → p ∉ [q] := by
    intro k p x hx hxk hk hp
    rw [List.mem_singleton.mp hp] at hx
    exact absurd (hxk.trans hk) (hlt x hx).ne
  refine ⟨h.nodup, fun k d hk p => ?_, fun k d hk => ?_⟩
  · rw [h.mem k d hk p]
    constructor
    · rintro ⟨hp, -, x, hx, hxk⟩
      exact ⟨hp, old hx hxk, x, ((key (old hx hxk) x).mpr ⟨hx, hxk⟩).1, hxk⟩
    · rintro ⟨hp, hkp, x, hx, hxk⟩
      exact ⟨hp, fun _ => List.not_mem_nil, x, ((key hkp x).mp ⟨hx, hxk⟩).1, hxk⟩
  · rw [h.matched k d hk]
    constructor
    · intro hm p hp hkp x hx hxk
      exact hm p hp (fun _ => List.not_mem_nil) x ((key hkp x).mp ⟨hx, hxk⟩).1 hxk
    · intro hm p hp _ x hx hxk
      exact hm p hp (old hx hxk) x ((key (old hx hxk) x).mpr ⟨hx, hxk⟩).1 hxk

/-- Of a list in order, the end holds what is above any bound that few enough are above. -/
theorem mem_drop_of_countP {l : List Buffer} {P : Index → Prop} [DecidablePred P] {n : Nat}
    (hl : l.Pairwise fun e e' => index e.bytes < index e'.bytes)
    (hP : ∀ a b, P a → a < b → P b) (hn : l.countP (fun e => P (index e.bytes)) ≤ n) {e : Buffer}
    (he : e ∈ l) (hpe : P (index e.bytes)) : e ∈ l.drop (l.length - n) := by
  rw [← List.take_append_drop (l.length - n) l] at he
  rcases List.mem_append.mp he with he | he
  · have hsplit := hl
    rw [← List.take_append_drop (l.length - n) l, List.pairwise_append] at hsplit
    have hall : ∀ x ∈ l.drop (l.length - n), decide (P (index x.bytes)) = true := fun x hx =>
      decide_eq_true (hP _ _ hpe (hsplit.2.2 e he x hx))
    have hone : 0 < (l.take (l.length - n)).countP fun e => P (index e.bytes) :=
      List.countP_pos_iff.mpr ⟨e, he, decide_eq_true hpe⟩
    have hcount : l.countP (fun e => P (index e.bytes)) =
        (l.take (l.length - n)).countP (fun e => P (index e.bytes)) +
          (l.drop (l.length - n)).length := by
      rw [← List.countP_eq_length.mpr hall, ← List.countP_append, List.take_append_drop]
    have hlen := List.length_pos_of_mem he
    rw [List.length_take] at hlen
    rw [List.length_drop] at hcount
    omega
  · exact he

/-- What `handleEcho` does with an echo that is well formed. -/
theorem handleEcho_of_le (cr : Crypto) (r : Receiver) (q : ProcId) {e : Buffer}
    (hl : headerSize ≤ e.bytes.length) : r.handleEcho cr e q =
      if (∃ l ∈ r.latestPolledMessage, index e.bytes < l) ∨
          ∃ f ∈ r.msgTail.first?, index e.bytes < f.1 then
        .ok { r with echoed := Function.update r.echoed q (r.echoed q ++ [e]) }
      else
        match r.msgTail.find? (index e.bytes) with
        | some _ =>
          ({ r with echoed := Function.update r.echoed q (r.echoed q ++ [e]) } : Receiver).echo cr
            (index e.bytes) q e
        | none =>
          if ∃ l ∈ (r.bufferedEchoes q).getLast?, index e.bytes < index l.bytes then
            .error (.echoesOutOfOrder q)
          else
            .ok { r with
              echoed := Function.update r.echoed q (r.echoed q ++ [e])
              bufferedEchoes := Function.update r.bufferedEchoes q ((r.bufferedEchoes q ++ [e]).drop
                ((r.bufferedEchoes q ++ [e]).length - r.tail)) } := by
  unfold handleEcho
  exact if_neg (Nat.not_lt.mpr hl)

/-- The tests `handleEcho` discards an echo by do not discard what is ahead. -/
theorem Tracked.not_ahead (h : r.Tracked cr) {k : Index}
    (hd : (∃ l ∈ r.latestPolledMessage, k < l) ∨ ∃ f ∈ r.msgTail.first?, k < f.1) :
    ¬ r.Ahead k ∧ r.msgTail.find? k = none := by
  rcases hd with ⟨l, hl, hlt⟩ | ⟨f, hf, hlt⟩
  · obtain ⟨m, hm, rfl⟩ := h.latest l hl
    refine ⟨fun ha => absurd (ha m hm) hlt.not_gt, ?_⟩
    by_contra hne
    obtain ⟨d, hd⟩ := Option.ne_none_iff_exists'.mp hne
    exact absurd (h.fifo.latest_lt _ hl k _ (held_of_find? hd)) hlt.not_gt
  · have hfd := OrdMap.find?_of_first? hf
    obtain ⟨hm, hi⟩ := h.fifo.held_received f.1 _ (held_of_find? hfd)
    refine ⟨fun ha => absurd (ha _ hm) (by rw [hi]; exact hlt.not_gt), ?_⟩
    by_contra hne
    obtain ⟨d, hd⟩ := Option.ne_none_iff_exists'.mp hne
    exact absurd (OrdMap.first?_le hf hd) (Nat.not_le.mpr hlt)

theorem Tracked.of_sameSlow (h : r.Tracked cr) (hs : r.SameSlow r') (hw : r'.Waiting 0 [])
    (hn : r'.Noted cr 0 []) : r'.Tracked cr := by
  refine ⟨hs.others ▸ h.distinct, hs.fifo h.fifo, fun l hl => ?_, hw, hn⟩
  rw [hs.latestPolledMessage] at hl
  rw [hs.received]
  exact h.latest l hl

/-- The echoes of each sender stay in order with one that comes next. -/
theorem Tracked.sorted_echoed (h : r.Tracked cr) {e : Buffer}
    (hlt : ∀ e' ∈ r.echoed q, index e'.bytes < index e.bytes) (p : ProcId) :
    (Function.update r.echoed q (r.echoed q ++ [e]) p).Pairwise
      fun e e' => index e.bytes < index e'.bytes := by
  by_cases hp : p = q
  · subst hp
    rw [Function.update_self, List.pairwise_append]
    exact ⟨h.waiting.sorted p, List.pairwise_singleton .., fun x hx y hy =>
      List.mem_singleton.mp hy ▸ hlt x hx⟩
  · rw [Function.update_of_ne hp]
    exact h.waiting.sorted p

/-- An echo that is not ahead of the messages leaves the buffers as they are. -/
theorem Tracked.waiting_late (h : r.Tracked cr) {e : Buffer}
    (hlt : ∀ e' ∈ r.echoed q, index e'.bytes < index e.bytes) (hs : r.SameSlow r')
    (hna : ¬ r.Ahead (index e.bytes)) (hb : r'.bufferedEchoes = r.bufferedEchoes)
    (he : r'.echoed = Function.update r.echoed q (r.echoed q ++ [e])) : r'.Waiting 0 [] := by
  refine ⟨fun p => by rw [he]; exact h.sorted_echoed hlt p, fun p => ?_, fun p x hx ha => ?_⟩
  · rw [he, hb]
    refine (h.waiting.sublist p).trans ?_
    by_cases hp : p = q
    · subst hp
      rw [Function.update_self]
      exact List.sublist_append_left ..
    · rw [Function.update_of_ne hp]
  · have hax : r.Ahead (index x.bytes) := fun m hm =>
      (ha.resolve_right (nomatch ·.1)) m (hs.received ▸ hm)
    rw [hb]
    rw [he] at hx
    refine h.waiting.buffered p x ?_ (.inl hax)
    by_cases hp : p = q
    · subst hp
      rw [Function.update_self] at hx
      refine (List.mem_append.mp hx).resolve_right fun hxe => hna ?_
      rw [← List.mem_singleton.mp hxe]
      exact hax
    · rwa [Function.update_of_ne hp] at hx

/-- One that is ahead of them is in the buffer of its sender, with the others that are: there are
no more than `tail`. -/
theorem Tracked.waiting_ahead (h : r.Tracked cr) {e : Buffer}
    (hlt : ∀ e' ∈ r.echoed q, index e'.bytes < index e.bytes)
    (hcount : (r.echoed q ++ [e]).countP (fun e => r.Ahead (index e.bytes)) ≤ r.tail) :
    Waiting 0 [] { r with
      echoed := Function.update r.echoed q (r.echoed q ++ [e])
      bufferedEchoes := Function.update r.bufferedEchoes q ((r.bufferedEchoes q ++ [e]).drop
        ((r.bufferedEchoes q ++ [e]).length - r.tail)) } := by
  have hsub : (r.bufferedEchoes q ++ [e]).Sublist (r.echoed q ++ [e]) :=
    (h.waiting.sublist q).append_right [e]
  refine ⟨h.sorted_echoed hlt, fun p => ?_, fun p x hx ha => ?_⟩
  · by_cases hp : p = q
    · subst hp
      simp only [Function.update_self]
      exact (List.drop_sublist ..).trans hsub
    · simp only [Function.update_of_ne hp]
      exact h.waiting.sublist p
  · have hax : r.Ahead (index x.bytes) := ha.resolve_right (nomatch ·.1)
    by_cases hp : p = q
    · subst hp
      simp only [Function.update_self] at hx ⊢
      have hs' := h.sorted_echoed hlt p
      rw [Function.update_self] at hs'
      refine mem_drop_of_countP (hs'.sublist hsub)
        (fun a b ha hab m hm => (ha m hm).trans hab) ((hsub.countP_le ..).trans hcount) ?_ hax
      rcases List.mem_append.mp hx with hx | hx
      · exact List.mem_append_left _ (h.waiting.buffered p x hx (.inl hax))
      · exact List.mem_append_right _ hx
    · simp only [Function.update_of_ne hp] at hx ⊢
      exact h.waiting.buffered p x hx (.inl hax)

/-- **An echo that comes next is noted, waits, or is too late.** -/
theorem Tracked.echo (h : r.Tracked cr) (hq : q ∈ r.others) {e : Buffer}
    (ho : r.Orderly (.echo q e)) : ∃ r', r.handleEcho cr e q = .ok r' ∧ r'.Tracked cr := by
  obtain ⟨hl, hlt, hcount⟩ := ho
  have hn₁ := h.noted.arrive hlt
  have hdef := handleEcho_of_le cr r q hl
  by_cases hdis : (∃ l ∈ r.latestPolledMessage, index e.bytes < l) ∨
      ∃ f ∈ r.msgTail.first?, index e.bytes < f.1
  · rw [if_pos hdis] at hdef
    obtain ⟨hna, hnone⟩ := h.not_ahead hdis
    have hs := handleEcho_cases hdef
    exact ⟨_, hdef, h.of_sameSlow hs (h.waiting_late hlt hs hna rfl rfl) (hn₁.settle (.inr hnone))⟩
  · rw [if_neg hdis] at hdef
    cases hfind : r.msgTail.find? (index e.bytes) with
    | some d =>
        rw [hfind] at hdef
        obtain ⟨hm, hi⟩ := h.fifo.held_received _ _ (held_of_find? hfind)
        have hna : ¬ r.Ahead (index e.bytes) := fun ha =>
          absurd (ha _ hm) (by rw [hi]; exact lt_irrefl _)
        have hself : e ∈ Function.update r.echoed q (r.echoed q ++ [e]) q := by
          rw [Function.update_self]
          exact List.mem_append_right _ List.mem_cons_self
        obtain ⟨r', hr', hn', hb⟩ := hn₁.note hq List.not_mem_nil hself rfl (fun e' he' hi' => by
          rw [show ({ r with echoed := Function.update r.echoed q (r.echoed q ++ [e]) } :
            Receiver).echoed q = r.echoed q ++ [e] from Function.update_self ..] at he'
          rcases List.mem_append.mp he' with he' | he'
          · exact absurd hi' (hlt e' he').ne
          · exact List.mem_singleton.mp he') hfind
        have hdef' := hdef.trans hr'
        have hs := handleEcho_cases hdef'
        exact ⟨r', hdef', h.of_sameSlow hs
          (h.waiting_late hlt hs hna hb (echoed_handleEcho hl hdef')) (hn'.settle (.inl rfl))⟩
    | none =>
        rw [hfind] at hdef
        have hord : ¬∃ l ∈ (r.bufferedEchoes q).getLast?, index e.bytes < index l.bytes := by
          rintro ⟨l, hlast, hll⟩
          have hle := (h.waiting.sublist q).mem (List.mem_of_mem_getLast? hlast)
          exact absurd hll (hlt l hle).not_gt
        simp only [if_neg hord] at hdef
        exact ⟨_, hdef, h.of_sameSlow (handleEcho_cases hdef) (h.waiting_ahead hlt hcount)
          ((hn₁.settle (.inr hfind)).buffers _)⟩

/-! ### Every run -/

theorem tracked_start {tail : Nat} {others : List ProcId} (ht : 0 < tail) (hn : others.Nodup) :
    ({ tail, others } : Receiver).Tracked cr := by
  refine ⟨hn, (Config.start_sound cr others ht).1, ?_, ⟨?_, ?_, ?_⟩, ⟨?_, ?_, ?_⟩⟩
  · exact fun _ h => nomatch h
  · exact fun _ => .nil
  · exact fun _ => .slnil
  · exact fun _ _ h => nomatch h
  · exact fun _ _ h => nomatch h
  · exact fun _ _ h => nomatch h
  · exact fun _ _ h => nomatch h

/-- A change that leaves the echoes and the records. -/
theorem Tracked.quiet (h : r.Tracked cr) (hq : Quiet r r') (hf : r'.Fifo)
    (ho : r'.others = r.others) : r'.Tracked cr := by
  refine ⟨ho ▸ h.distinct, hf, by rw [hq.latestPolledMessage, hq.received]; exact h.latest,
    ⟨?_, ?_, ?_⟩, ⟨fun k d hk => ?_, fun k d hk q => ?_, fun k d hk => ?_⟩⟩
  · rw [hq.echoed]; exact h.waiting.sorted
  · rw [hq.echoed, hq.bufferedEchoes]; exact h.waiting.sublist
  · unfold Ahead
    rw [hq.echoed, hq.bufferedEchoes, hq.received]
    exact h.waiting.buffered
  · obtain ⟨d₀, hd, -, he, -⟩ := hq.kept k d hk
    exact he ▸ h.noted.nodup k d₀ hd
  · obtain ⟨d₀, hd, -, he, -⟩ := hq.kept k d hk
    rw [he, hq.echoed, ho]
    exact h.noted.mem k d₀ hd q
  · obtain ⟨d₀, hd, hm, -, he⟩ := hq.kept k d hk
    rw [he, hq.echoed, ho, hm]
    exact h.noted.matched k d₀ hd

theorem Tracked.handle (h : r.Tracked cr) {inp : Input} (ho : r.Orderly inp)
    (hh : r.handle cr inp = .ok r') : r'.Tracked cr := by
  have hg := Grows.handle hh
  have hf := h.fifo.handle hh
  cases inp with
  | message m =>
      by_cases hcap : r.others.length ≤ 8
      · obtain ⟨r₁, h₁, ht, -⟩ := h.message hcap ho.1 ho.2
        rw [Receiver.handle, h₁] at hh
        cases hh
        exact ht
      · rw [Receiver.handle, h.handleMessage_ahead ho.1 ho.2, if_pos (Nat.not_le.mp hcap)] at hh
        cases hh
  | echo q e =>
      simp only [Receiver.handle] at hh
      split at hh
      · next hq =>
          obtain ⟨r₁, h₁, ht⟩ := h.echo hq ho
          rw [h₁] at hh
          cases hh
          exact ht
      · cases hh; exact h
  | poll =>
      cases recorded_handle hh with
      | quiet hq => exact h.quiet hq hf hg.others
      | @poll i d _ hi hp hr =>
          have hfind : ∀ k d', r'.msgTail.find? k = some d' → r.msgTail.find? k = some d' := by
            intro k d' hk
            rw [hr, OrdMap.find?_erase] at hk
            split at hk
            · cases hk
            · exact hk
          obtain ⟨hm, hidx⟩ := h.fifo.held_received i _ (held_of_find? (OrdMap.find?_of_first? hi))
          have hw := h.waiting
          have hn := h.noted
          refine ⟨hg.others ▸ h.distinct, hf, fun l hl => ?_, ?_, ?_⟩
          · rw [hr] at hl ⊢
            cases hl
            exact ⟨_, hm, hidx⟩
          · rw [hr]
            exact ⟨hw.sorted, hw.sublist, hw.buffered⟩
          · refine ⟨fun k d' hk => hn.nodup k d' (hfind k d' hk), fun k d' hk q => ?_,
              fun k d' hk => ?_⟩
            · rw [hn.mem k d' (hfind k d' hk) q, hr]
            · rw [hn.matched k d' (hfind k d' hk), hr]
  | signature _ _ | finishCheck _ | dropCheck _ | pollSignatureVerification | writeCompletion _ _
  | readCompletion _ _ | toggleSlowPath _ =>
      cases recorded_handle hh with
      | quiet hq => exact h.quiet hq hf hg.others

theorem tracked_of_reachable (h : Reachable Init (Step cr) Orderly r) : r.Tracked cr :=
  h.induct (P := Tracked cr) (fun _ ⟨_, _, ht, hn, hr⟩ => hr ▸ tracked_start ht hn)
    fun _ _ _ _ hi hg hs => hi.handle hg hs

/-! ### Interleavings -/

/-- The messages of the tail, as the slow path sees them. -/
def shape (r : Receiver) : OrdMap Index Held := r.msgTail.map MessageData.held

/-- The tail with one more message. -/
def emplaceHeld (tail : Nat) (t : OrdMap Index Held) (m : Bytes) : OrdMap Index Held :=
  let t := t.insert (index m) ⟨m, none, []⟩
  if tail < t.size then t.popFront else t

theorem find?_shape (r : Receiver) (k : Index) : r.shape.find? k = r.held k := OrdMap.find?_map ..

/-- The fast path leaves the shape alone. -/
theorem shape_of_sameSlow (hs : r.SameSlow r') : r'.shape = r.shape :=
  OrdMap.ext_find? fun k => by rw [find?_shape, find?_shape, hs.held]

/-- A message is taken in, and may push out the oldest. -/
theorem shape_take (r : Receiver) (m : Bytes) :
    (r.take m).shape = emplaceHeld r.tail r.shape m := by
  have hins : r.shape.insert (index m) ⟨m, none, []⟩ =
      (r.msgTail.insert (index m) { message := m }).map MessageData.held :=
    (r.msgTail.map_insert MessageData.held (index m) { message := m }).symm
  change (r.emplace m).map MessageData.held = _
  unfold emplace emplaceHeld
  simp only [hins, OrdMap.size_map]
  split
  · exact OrdMap.map_popFront ..
  · rfl

/-- A message held at the end was held before, or came. -/
theorem find?_foldl_emplaceHeld {tail : Nat} {ms : List Bytes} {t : OrdMap Index Held} {k : Index}
    {h : Held} (hh : (ms.foldl (emplaceHeld tail) t).find? k = some h) :
    t.find? k = some h ∨ ∃ m ∈ ms, index m = k ∧ h.message = m := by
  induction ms generalizing t with
  | nil => exact .inl hh
  | cons m ms ih =>
      rcases ih hh with hh | ⟨m', hm', hi⟩
      · have hins : (t.insert (index m) ⟨m, none, []⟩).find? k = some h := by
          unfold emplaceHeld at hh
          simp only at hh
          split at hh
          · exact OrdMap.find?_of_popFront hh
          · exact hh
        rw [OrdMap.find?_insert] at hins
        split at hins
        · next hk => cases hins; exact .inr ⟨m, List.mem_cons_self, hk.symm, rfl⟩
        · exact .inl hins
      · exact .inr ⟨m', List.mem_cons_of_mem _ hm', hi⟩

/-- What a run of messages and echoes leaves, from `r`. -/
structure After (cr : Crypto) (r : Receiver) (as : List Arrival) (r' : Receiver) : Prop where
  tracked : r'.Tracked cr
  tail : r'.tail = r.tail
  others : r'.others = r.others
  echoed : ∀ q ∈ r.others, ∃ es, r'.echoed q = r.echoed q ++ es ∧
    es.map Buffer.bytes = as.filterMap (Arrival.echo? q)
  shape : r'.shape = (as.filterMap Arrival.message?).foldl (emplaceHeld r.tail) r.shape

/-- One of them more, first. -/
theorem After.cons {r₁ : Receiver} {a : Arrival} {as : List Arrival} (h : After cr r₁ as r')
    (ht : r₁.tail = r.tail) (ho : r₁.others = r.others)
    (he : ∀ q ∈ r.others, ∃ es, r₁.echoed q = r.echoed q ++ es ∧
      es.map Buffer.bytes = (a.echo? q).toList)
    (hs : r₁.shape = a.message?.toList.foldl (emplaceHeld r.tail) r.shape) :
    After cr r (a :: as) r' := by
  refine ⟨h.tracked, h.tail.trans ht, h.others.trans ho, fun q hq => ?_, ?_⟩
  · obtain ⟨es, hes, hb⟩ := he q hq
    obtain ⟨es', hes', hb'⟩ := h.echoed q (ho ▸ hq)
    refine ⟨es ++ es', by rw [hes', hes, List.append_assoc], ?_⟩
    rw [List.map_append, hb, hb']
    cases hq : a.echo? q with
    | none => rw [List.filterMap_cons_none hq]; rfl
    | some e => rw [List.filterMap_cons_some hq]; rfl
  · rw [h.shape, hs, ht]
    cases hm : a.message? with
    | none => rw [List.filterMap_cons_none hm]; rfl
    | some m => rw [List.filterMap_cons_some hm]; rfl

/-- A message comes that finds no room for the echoes of so many receivers. -/
def Overfull (r : Receiver) (as : List Arrival) : Prop :=
  8 < r.others.length ∧ ∃ m, m ∈ as.filterMap Arrival.message?

/-- Where the first arrival succeeds, the others decide. -/
theorem overfull_cons {a : Arrival} {as : List Arrival}
    (hroom : 8 < r.others.length → a.message? = none) : r.Overfull (a :: as) ↔ r.Overfull as := by
  refine and_congr_right fun hlt => ?_
  rw [List.filterMap_cons_none (hroom hlt)]

/-- What one arrival leaves. -/
theorem Tracked.arrive (h : r.Tracked cr) {p : Pool} {a : Arrival}
    (ho : ∀ inp ∈ (Pooled.mk r p).input a, r.Orderly inp) :
    (∃ r₁ p₁, (Pooled.mk r p).handle cr a = .ok ⟨r₁, p₁⟩ ∧ r₁.Tracked cr ∧ r₁.others = r.others ∧
      r₁.tail = r.tail ∧ (8 < r.others.length → a.message? = none) ∧
      (∀ q ∈ r.others, ∃ es, r₁.echoed q = r.echoed q ++ es ∧
        es.map Buffer.bytes = (a.echo? q).toList) ∧
      r₁.shape = a.message?.toList.foldl (emplaceHeld r.tail) r.shape) ∨
    8 < r.others.length ∧ a.message?.isSome ∧ (Pooled.mk r p).handle cr a = .error .capacity := by
  have same : ∀ q ∈ r.others, ∃ es, r.echoed q = r.echoed q ++ es ∧ es.map Buffer.bytes = [] :=
    fun _ _ => ⟨[], (List.append_nil _).symm, rfl⟩
  cases a with
  | message m =>
      have ho := ho _ rfl
      obtain ⟨herror, hok⟩ := @Pooled.handle_of_input cr ⟨r, p⟩ (.message m) _ rfl
      by_cases hcap : r.others.length ≤ 8
      · obtain ⟨r₁, h₁, ht, hs⟩ := h.message hcap ho.1 ho.2
        obtain ⟨p₁, hp₁⟩ := hok r₁ h₁
        refine .inl ⟨r₁, p₁, hp₁, ht, hs.others, hs.tail,
          fun hlt => absurd hcap (Nat.not_le.mpr hlt), fun q hq => ?_, ?_⟩
        · have hh : r.handle cr (.message m) = .ok r₁ := h₁
          cases recorded_handle hh with
          | quiet hq' => rw [hq'.echoed]; exact same q hq
          | message hf hs he => rw [he]; exact same q hq
        · rw [shape_of_sameSlow hs, shape_take]
          rfl
      · refine .inr ⟨Nat.not_le.mp hcap, rfl, herror _ ?_⟩
        change r.handleMessage cr m = _
        rw [h.handleMessage_ahead ho.1 ho.2, if_pos (Nat.not_le.mp hcap)]
  | echo q bytes =>
      have ho := ho _ rfl
      obtain ⟨-, hok⟩ := @Pooled.handle_of_input cr ⟨r, p⟩ (.echo q bytes) _ rfl
      have hbytes : ((p.copy bytes).next bytes.length).bytes = bytes := p.bytes_next bytes
      by_cases hq : q ∈ r.others
      · obtain ⟨r₁, h₁, ht⟩ := h.echo hq ho
        obtain ⟨p₁, hp₁⟩ := hok r₁ (by simp only [Receiver.handle, if_pos hq]; exact h₁)
        have hs := handleEcho_cases h₁
        refine .inl ⟨r₁, p₁, hp₁, ht, hs.others, hs.tail, fun _ => rfl, fun x hx => ?_,
          shape_of_sameSlow hs⟩
        rw [echoed_handleEcho ho.1 h₁]
        by_cases hxq : x = q
        · subst hxq
          rw [Function.update_self, Arrival.echo?, if_pos rfl]
          exact ⟨[_], rfl, congrArg (fun b => [b]) hbytes⟩
        · rw [Function.update_of_ne hxq, Arrival.echo?, if_neg (Ne.symm hxq)]
          exact same x hx
      · obtain ⟨p₁, hp₁⟩ := hok r (by simp only [Receiver.handle, if_neg hq])
        refine .inl ⟨r, p₁, hp₁, h, rfl, rfl, fun _ => rfl, fun x hx => ?_, rfl⟩
        rw [Arrival.echo?, if_neg (show ¬q = x from fun hqx => hq (hqx ▸ hx))]
        exact same x hx
  | straggling bytes =>
      exact .inl ⟨r, p.copy bytes, rfl, h, rfl, rfl, fun _ => rfl, same, rfl⟩

/-- **A run.**  It ends as its messages and echoes say, whatever their order. -/
theorem run_cases {p : Pool} {as : List Arrival} (h : r.Tracked cr)
    (ho : (Pooled.mk r p).OrderlyRun cr as) :
    (¬ r.Overfull as ∧
        ∃ s', (Pooled.mk r p).run cr as = .ok s' ∧ After cr r as s'.recv) ∨
      r.Overfull as ∧ (Pooled.mk r p).run cr as = .error .capacity := by
  induction as generalizing r p with
  | nil =>
      refine .inl ⟨?_, ⟨r, p⟩, rfl, h, rfl, rfl, fun q _ => ?_, rfl⟩
      · rintro ⟨-, m, hm⟩
        cases hm
      · exact ⟨[], (List.append_nil _).symm, rfl⟩
  | cons a as ih =>
      obtain ⟨ho, hnext⟩ := ho
      rcases h.arrive ho with ⟨r₁, p₁, h₁, ht, hothers, htail, hroom, hechoed, hshape⟩ |
        ⟨hlt, hm, herr⟩
      · have hfull : r.Overfull (a :: as) ↔ r₁.Overfull as := by
          rw [overfull_cons hroom, Overfull, Overfull, hothers]
        have hrun : (Pooled.mk r p).run cr (a :: as) = (Pooled.mk r₁ p₁).run cr as := by
          rw [Pooled.run, h₁]
        rw [hfull, hrun]
        exact (ih ht (hnext ⟨r₁, p₁⟩ (by rw [h₁]; rfl))).imp_left fun ⟨hno, s', hs', haft⟩ =>
          ⟨hno, s', hs', haft.cons htail hothers hechoed hshape⟩
      · obtain ⟨m, hm⟩ := Option.isSome_iff_exists.mp hm
        refine .inr ⟨⟨hlt, m, ?_⟩, by rw [Pooled.run, herr]⟩
        rw [List.filterMap_cons_some hm]
        exact List.mem_cons_self

/-- No echo of a message in the tail is lost. -/
theorem Tracked.noneLost (h : r.Tracked cr) : r.NoneLost :=
  ⟨fun k d hk q hq e he hi =>
    (h.noted.mem k d hk q).mpr ⟨hq, fun _ => List.not_mem_nil, e, he, hi⟩,
  fun q _ e he ha => h.waiting.buffered q e he (.inl ha)⟩

/-- Two receivers to which the same echoes came, in other buffers where that decides nothing, and
which hold the same messages. -/
theorem Tracked.agree {r₁ r₂ : Receiver} (h₁ : r₁.Tracked cr) (h₂ : r₂.Tracked cr)
    (ho : r₁.others = r₂.others)
    (he : ∀ q ∈ r₁.others, (r₁.echoed q).map Buffer.bytes = (r₂.echoed q).map Buffer.bytes)
    (hs : r₁.shape = r₂.shape)
    (hc : ∀ k d, r₁.msgTail.find? k = some d → ∀ q ∈ r₁.others,
      (∀ e ∈ r₁.echoed q, index e.bytes = k → echoMatches cr d.message e = true) ↔
        ∀ e ∈ r₂.echoed q, index e.bytes = k → echoMatches cr d.message e = true) :
    r₁.Agree r₂ := by
  have hheld : ∀ k, r₁.held k = r₂.held k := fun k => by
    rw [← find?_shape, ← find?_shape, hs]
  have hany : ∀ (r : Receiver) q k, (∃ e ∈ r.echoed q, index e.bytes = k) ↔
      ∃ b ∈ (r.echoed q).map Buffer.bytes, index b = k := fun r q k => by
    simp only [List.mem_map, exists_exists_and_eq_and]
  have hmem : ∀ k d₁ d₂, r₁.msgTail.find? k = some d₁ → r₂.msgTail.find? k = some d₂ →
      ∀ q, q ∈ d₁.echoes ↔ q ∈ d₂.echoes := by
    intro k d₁ d₂ hd₁ hd₂ q
    rw [h₁.noted.mem k d₁ hd₁ q, h₂.noted.mem k d₂ hd₂ q, ho]
    refine and_congr_right fun hq => ?_
    rw [hany, hany, he q (ho ▸ hq)]
  refine ⟨hheld, hmem, fun k d₁ d₂ hd₁ hd₂ => ?_⟩
  have hh : d₁.held = d₂.held := by
    have := hheld k
    rwa [held_of_find? hd₁, held_of_find? hd₂, Option.some.injEq] at this
  have hlen : d₁.echoes.length = d₂.echoes.length :=
    ((List.perm_ext_iff_of_nodup (h₁.noted.nodup k d₁ hd₁) (h₂.noted.nodup k d₂ hd₂)).mpr
      (hmem k d₁ d₂ hd₁ hd₂)).length_eq
  have hmsg : d₁.message = d₂.message := congrArg Held.message hh
  have hmatch : d₁.echoesMatch = d₂.echoesMatch := by
    rw [Bool.eq_iff_iff, h₁.noted.matched k d₁ hd₁, h₂.noted.matched k d₂ hd₂, ← ho, ← hmsg]
    exact forall_congr' fun q => forall_congr' fun hq =>
      ⟨fun hm hk => (hc k d₁ hd₁ q hq).mp (hm hk), fun hm hk => (hc k d₁ hd₁ q hq).mpr (hm hk)⟩
  unfold MessageData.pollable
  rw [hlen, hmatch, ho, show d₁.checkedReceivers = d₂.checkedReceivers from
    congrArg Held.checkedReceivers hh]

/-- The echoes that came match alike in both runs. -/
theorem matches_of_conclusive {es es₁ es₂ : List Buffer} {k : Index} {m : Bytes}
    (hb : es₁.map Buffer.bytes = es₂.map Buffer.bytes)
    (hc : ∀ e ∈ es₁, index e.bytes = k → Conclusive m e.bytes) :
    (∀ e ∈ es ++ es₁, index e.bytes = k → echoMatches cr m e = true) →
      ∀ e ∈ es ++ es₂, index e.bytes = k → echoMatches cr m e = true := by
  intro h e he hi
  rcases List.mem_append.mp he with he | he
  · exact h e (List.mem_append_left _ he) hi
  · obtain ⟨e', he', hbytes⟩ := List.mem_map.mp (hb ▸ List.mem_map_of_mem he)
    rw [← h e' (List.mem_append_right _ he') (hbytes ▸ hi)]
    exact (conclusive_iff cr m e'.bytes).mp (hc e' he' (hbytes ▸ hi)) e e' hbytes.symm rfl

end Receiver

namespace Pooled

open Receiver (Init Step Orderly Tracked)

/-- **Echoes and messages in any order.**  From a state in which the echoes were in order so far,
two orders of the same messages and the same echoes, in order and at most `tail` ahead, none a
proper beginning of its message, leave the same messages with the same echoes, whatever the buffers
of the pools held; none is lost.  With more than eight other receivers, both orders fail at their first
message. -/
theorem run_agree {p₁ p₂ : Pool} {as₁ as₂ : List Arrival} {r : Receiver}
    (h : Reachable Init (Step cr) Orderly r)
    (ho₁ : (Pooled.mk r p₁).OrderlyRun cr as₁) (ho₂ : (Pooled.mk r p₂).OrderlyRun cr as₂)
    (hm : as₁.filterMap Arrival.message? = as₂.filterMap Arrival.message?)
    (he : ∀ q ∈ r.others, as₁.filterMap (Arrival.echo? q) = as₂.filterMap (Arrival.echo? q))
    (hc : r.ConclusiveRun as₁) :
    (∃ s₁ s₂, (Pooled.mk r p₁).run cr as₁ = .ok s₁ ∧ (Pooled.mk r p₂).run cr as₂ = .ok s₂ ∧
        s₁.recv.Agree s₂.recv ∧ s₁.recv.NoneLost ∧ s₂.recv.NoneLost) ∨
      8 < r.others.length ∧ (Pooled.mk r p₁).run cr as₁ = .error .capacity ∧
        (Pooled.mk r p₂).run cr as₂ = .error .capacity := by
  have ht := Receiver.tracked_of_reachable h
  have hfull : r.Overfull as₁ ↔ r.Overfull as₂ := by
    rw [Receiver.Overfull, Receiver.Overfull, hm]
  rcases Receiver.run_cases ht ho₁ with ⟨hno, s₁, hs₁, hf₁⟩ | ⟨hfull₁, hs₁⟩
  · rcases Receiver.run_cases ht ho₂ with ⟨-, s₂, hs₂, hf₂⟩ | ⟨hfull₂, -⟩
    · have hshape : s₁.recv.shape = s₂.recv.shape := by rw [hf₁.shape, hf₂.shape, hm]
      refine .inl ⟨s₁, s₂, hs₁, hs₂, hf₁.tracked.agree hf₂.tracked
        (hf₁.others.trans hf₂.others.symm) (fun q hq => ?_) hshape (fun k d hd q hq => ?_),
        hf₁.tracked.noneLost, hf₂.tracked.noneLost⟩
      · have hq := hf₁.others ▸ hq
        obtain ⟨es₁, h₁, hb₁⟩ := hf₁.echoed q hq
        obtain ⟨es₂, h₂, hb₂⟩ := hf₂.echoed q hq
        rw [h₁, h₂, List.map_append, List.map_append, hb₁, hb₂, he q hq]
      · have hq := hf₁.others ▸ hq
        obtain ⟨es₁, h₁, hb₁⟩ := hf₁.echoed q hq
        obtain ⟨es₂, h₂, hb₂⟩ := hf₂.echoed q hq
        have hb : es₁.map Buffer.bytes = es₂.map Buffer.bytes := by rw [hb₁, hb₂, he q hq]
        -- the message was held before, or it came
        have hcon : ∀ b ∈ as₁.filterMap (Arrival.echo? q), index b = k →
            Conclusive d.message b := by
          intro b hb hi
          have hheld := Receiver.held_of_find? hd
          rw [← Receiver.find?_shape, hf₁.shape] at hheld
          rcases Receiver.find?_foldl_emplaceHeld hheld with hheld | ⟨m, hmem, hmi, hdm⟩
          · rw [Receiver.find?_shape] at hheld
            obtain ⟨d₀, hd₀, hdd⟩ := Option.map_eq_some_iff.mp hheld
            rw [← show d₀.message = d.message from congrArg Held.message hdd]
            exact (hc q hq b hb).1 d₀ (hi ▸ hd₀)
          · rw [show d.message = m from hdm]
            exact (hc q hq b hb).2 m hmem (hmi.trans hi.symm)
        rw [h₁, h₂]
        refine ⟨Receiver.matches_of_conclusive hb fun e he' hi => ?_,
          Receiver.matches_of_conclusive hb.symm fun e he' hi => ?_⟩
        · exact hcon _ (hb₁ ▸ List.mem_map_of_mem he') hi
        · exact hcon _ (hb₁ ▸ hb ▸ List.mem_map_of_mem he') hi
    · exact absurd (hfull.mpr hfull₂) hno
  · rcases Receiver.run_cases ht ho₂ with ⟨hno, -⟩ | ⟨-, hs₂⟩
    · exact absurd (hfull.mp hfull₁) hno
    · exact .inr ⟨hfull₁.1, hs₁, hs₂⟩

end Pooled

namespace Example

/-- The echoes of two receivers come around the message. -/
def around : List Arrival := [.echo 1 (le 8 0), .message (le 8 0), .echo 2 (le 8 0)]

/-- They come after the message, in the other order. -/
def after : List Arrival := [.message (le 8 0), .echo 2 (le 8 0), .echo 1 (le 8 0)]

/-- Message 0 with data `[1, 2]`, of which receiver 1 was sent the first byte only. -/
def shortFirst : List Arrival :=
  [.message (le 8 0 ++ [1, 2]), .echo 1 (le 8 0 ++ [1]), .echo 2 (le 8 0 ++ [1, 2])]

/-- The echo of receiver 1 comes last, to the buffer that held the one of receiver 2. -/
def shortLast : List Arrival :=
  [.message (le 8 0 ++ [1, 2]), .echo 2 (le 8 0 ++ [1, 2]), .echo 1 (le 8 0 ++ [1])]

/-- The echoes are their own hashes, and none is valid. -/
def silent : Crypto where
  blake3 m := (m ++ List.replicate 32 0).take 32
  length_blake3 := length_take_padded
  verify _ _ := false

/-- A receiver with two others, whose buffers are empty. -/
def fresh : Pooled := ⟨{ tail := 2, others := [1, 2] }, fun _ _ => 0⟩

theorem reachable_fresh :
    Reachable Receiver.Init (Receiver.Step silent) Receiver.Orderly fresh.recv :=
  .init ⟨2, [1, 2], by decide, by decide, rfl⟩

end Example

/-- Message 0 is pollable if its short echo comes last, and is not if it comes first. -/
theorem Pooled.pollable_differ :
    ¬ ∀ (cr : Crypto) (r : Receiver) (p : Pool) (as₁ as₂ : List Arrival),
        Reachable Receiver.Init (Receiver.Step cr) Receiver.Orderly r →
        (Pooled.mk r p).OrderlyRun cr as₁ → (Pooled.mk r p).OrderlyRun cr as₂ →
        as₁.filterMap Arrival.message? = as₂.filterMap Arrival.message? →
        (∀ q ∈ r.others, as₁.filterMap (Arrival.echo? q) = as₂.filterMap (Arrival.echo? q)) →
        ∀ s₁ s₂, (Pooled.mk r p).run cr as₁ = .ok s₁ → (Pooled.mk r p).run cr as₂ = .ok s₂ →
          s₁.recv.Agree s₂.recv := by
  intro h
  have hrun : ((Example.fresh.run Example.silent Example.shortFirst).toOption.any fun s₁ =>
      (Example.fresh.run Example.silent Example.shortLast).toOption.any fun s₂ =>
        (s₁.recv.msgTail.find? 0).any (fun d => !d.pollable s₁.recv) &&
          (s₂.recv.msgTail.find? 0).any (fun d => d.pollable s₂.recv)) = true := by
    decide +kernel
  obtain ⟨s₁, hs₁, hrun⟩ := (Option.any_eq_true _ _).mp hrun
  obtain ⟨s₂, hs₂, hrun⟩ := (Option.any_eq_true _ _).mp hrun
  obtain ⟨h₁, h₂⟩ := Bool.and_eq_true_iff.mp hrun
  obtain ⟨d₁, hd₁, hp₁⟩ := (Option.any_eq_true _ _).mp h₁
  obtain ⟨d₂, hd₂, hp₂⟩ := (Option.any_eq_true _ _).mp h₂
  have hag := h Example.silent Example.fresh.recv Example.fresh.pool Example.shortFirst
    Example.shortLast Example.reachable_fresh (by decide +kernel) (by decide +kernel) rfl
    (by decide +kernel) s₁ s₂ (toOption_eq_some.mp hs₁) (toOption_eq_some.mp hs₂)
  have hsame := hag.pollable 0 d₁ d₂ hd₁ hd₂
  rw [hp₂] at hsame
  rw [hsame] at hp₁
  cases hp₁

/-- Both orders leave message 0 with both echoes. -/
theorem Pooled.run_agree_around : ∃ s₁ s₂ : Pooled,
    Example.fresh.run Example.silent Example.around = .ok s₁ ∧
      Example.fresh.run Example.silent Example.after = .ok s₂ ∧ s₁.recv.Agree s₂.recv := by
  rcases @Pooled.run_agree Example.silent Example.fresh.pool Example.fresh.pool Example.around
      Example.after Example.fresh.recv Example.reachable_fresh (by decide +kernel)
      (by decide +kernel) rfl (by decide +kernel) (by decide +kernel) with
    ⟨s₁, s₂, h₁, h₂, ha, -⟩ | ⟨hlt, -⟩
  · exact ⟨s₁, s₂, h₁, h₂, ha⟩
  · exact absurd hlt (by decide)

end Ubft.Broadcast
