import Ubft.Support.Bytes
import Ubft.Support.Incremental

/-!
# Rpc — the handshake

`rpc/conn/rpc-parser.hpp`'s `ConnectionRpcHandlerParser`, which is fed what a client sends when it
connects: its id, the length of its connection info and the info, and then "DONE".  It resumes at
the item it could not parse.  `sizeofId` is the size of `ProcIdType`, and an id is the integer that
its bytes hold.

What the steps are does not depend on how the stream was cut (`reports_of_chunks`).
-/

namespace Ubft.Rpc

/-- Before its first step, `clientId` is not initialized in the source. -/
structure ConnectionRpcHandlerParser where
  clientId : Nat := 0
  connectionInfo : Bytes := []
  initialized : Bool := false
  item : Nat := 0
  parsingBuf : Bytes := []
  deriving DecidableEq

namespace ConnectionRpcHandlerParser

/-- What the parser reports to the handler. -/
inductive Step where
  | step1
  | step2
  deriving DecidableEq, Repr

/-- "DONE". -/
def done : Bytes := [0x44, 0x4F, 0x4E, 0x45]

/-- `std::string(msg)`, which ends at the first zero. -/
def ofCString (msg : Bytes) : Bytes := msg.takeWhile (· ≠ 0)

variable (sizeofId : Nat) (p : ConnectionRpcHandlerParser)

/-- The bytes join those that are not parsed yet. -/
def feed (buf : Bytes) : ConnectionRpcHandlerParser :=
  { p with parsingBuf := p.parsingBuf ++ buf }

/-- `none` is `false`: nothing is written. -/
def parseClientId : Option ConnectionRpcHandlerParser :=
  if sizeofId ≤ p.parsingBuf.length then
    some { p with
      clientId := ofLe (p.parsingBuf.take sizeofId)
      parsingBuf := p.parsingBuf.drop sizeofId
      item := p.item + 1 }
  else none

/-- Four bytes of length, then the connection information. -/
def parseConnectionInfo : Option ConnectionRpcHandlerParser :=
  if 4 ≤ p.parsingBuf.length then
    let length := ofLe (p.parsingBuf.take 4)
    if length + 4 ≤ p.parsingBuf.length then
      some { p with
        connectionInfo := (p.parsingBuf.drop 4).take length
        parsingBuf := p.parsingBuf.drop (length + 4)
        item := p.item + 1 }
    else none
  else none

/-- Four bytes that say that the client is done. -/
def parseConnectionInitialized : Option ConnectionRpcHandlerParser :=
  if 4 ≤ p.parsingBuf.length then
    if ofCString (p.parsingBuf.take 4) = done then
      some { p with
        initialized := true
        parsingBuf := p.parsingBuf.drop 4
        item := p.item + 1 }
    else none
  else none

/-- From `case 1` on, which `case 0` falls through to. -/
def parseStep : Option Step × ConnectionRpcHandlerParser :=
  match p.item with
  | 1 =>
    match p.parseConnectionInfo with
    | none => (none, p)
    | some p => (some .step1, p)
  | 2 =>
    match p.parseConnectionInitialized with
    | none => (none, p)
    | some p => (some .step2, p)
  | _ => (none, p)

/-- The identifier of the client is parsed first, once. -/
def parse : Option Step × ConnectionRpcHandlerParser :=
  if p.item = 0 then
    match p.parseClientId sizeofId with
    | none => (none, p)
    | some p => p.parseStep
  else p.parseStep

variable {sizeofId} {p} {p' : ConnectionRpcHandlerParser} {o : Option Step} {s : Step}

/-! ### More bytes -/

theorem length_feed (bs : Bytes) : p.parsingBuf.length ≤ (p.feed bs).parsingBuf.length :=
  (List.sublist_append_left ..).length_le

/-- What was parsed is parsed when more bytes follow. -/
theorem parseClientId_feed (bs : Bytes) (h : p.parseClientId sizeofId = some p') :
    (p.feed bs).parseClientId sizeofId = some (p'.feed bs) := by
  unfold parseClientId at h ⊢
  split at h
  · next hlen =>
      cases h
      rw [if_pos (Nat.le_trans hlen (length_feed bs))]
      simp only [feed, List.take_append_of_le_length hlen, List.drop_append_of_le_length hlen]
  · cases h

/-- More bytes do not change what is parsed. -/
theorem parseConnectionInfo_feed (bs : Bytes) (h : p.parseConnectionInfo = some p') :
    (p.feed bs).parseConnectionInfo = some (p'.feed bs) := by
  unfold parseConnectionInfo at h ⊢
  dsimp only at h ⊢
  split at h
  · next hlen =>
      split at h
      · next hall =>
          cases h
          have htake : (p.feed bs).parsingBuf.take 4 = p.parsingBuf.take 4 :=
            List.take_append_of_le_length hlen
          have hinfo : ofLe (p.parsingBuf.take 4) ≤ (p.parsingBuf.drop 4).length := by
            rw [List.length_drop]
            exact Nat.le_sub_of_add_le hall
          rw [if_pos (Nat.le_trans hlen (length_feed bs)), htake,
            if_pos (Nat.le_trans hall (length_feed bs))]
          simp only [feed, List.drop_append_of_le_length hlen,
            List.take_append_of_le_length hinfo, List.drop_append_of_le_length hall]
      · cases h
  · cases h

theorem parseConnectionInitialized_feed (bs : Bytes)
    (h : p.parseConnectionInitialized = some p') :
    (p.feed bs).parseConnectionInitialized = some (p'.feed bs) := by
  unfold parseConnectionInitialized at h ⊢
  split at h
  · next hlen =>
      split at h
      · next hdone =>
          cases h
          have htake : (p.feed bs).parsingBuf.take 4 = p.parsingBuf.take 4 :=
            List.take_append_of_le_length hlen
          rw [if_pos (Nat.le_trans hlen (length_feed bs)), htake, if_pos hdone]
          simp only [feed, List.drop_append_of_le_length hlen]
      · cases h
  · cases h

/-- What `parse` does once the client is identified. -/
theorem parseStep_cases (h : p.parseStep = (o, p')) :
    (o = none ∧ p' = p) ∨
    (o = some .step1 ∧ p.item = 1 ∧ p.parseConnectionInfo = some p') ∨
    (o = some .step2 ∧ p.item = 2 ∧ p.parseConnectionInitialized = some p') := by
  unfold parseStep at h
  split at h
  · next hitem =>
      split at h
      · cases h
        exact .inl ⟨rfl, rfl⟩
      · next hinfo =>
          cases h
          exact .inr (.inl ⟨rfl, hitem, hinfo⟩)
  · next hitem =>
      split at h
      · cases h
        exact .inl ⟨rfl, rfl⟩
      · next hdone =>
          cases h
          exact .inr (.inr ⟨rfl, hitem, hdone⟩)
  · cases h
    exact .inl ⟨rfl, rfl⟩

theorem item_parseConnectionInfo (h : p.parseConnectionInfo = some p') :
    p'.item = p.item + 1 := by
  unfold parseConnectionInfo at h
  dsimp only at h
  split at h
  · split at h
    · cases h
      rfl
    · cases h
  · cases h

theorem item_parseConnectionInitialized (h : p.parseConnectionInitialized = some p') :
    p'.item = p.item + 1 := by
  unfold parseConnectionInitialized at h
  split at h
  · split at h
    · cases h
      rfl
    · cases h
  · cases h

theorem parseStep_feed (bs : Bytes) (h : p.parseStep = (some s, p')) :
    (p.feed bs).parseStep = (some s, p'.feed bs) := by
  rcases parseStep_cases h with ⟨ho, -⟩ | ⟨ho, hitem, hp⟩ | ⟨ho, hitem, hp⟩
  · cases ho
  · cases ho
    have hitem' : (p.feed bs).item = 1 := hitem
    unfold parseStep
    rw [hitem', parseConnectionInfo_feed bs hp]
    rfl
  · cases ho
    have hitem' : (p.feed bs).item = 2 := hitem
    unfold parseStep
    rw [hitem', parseConnectionInitialized_feed bs hp]
    rfl

/-- With the client's id parsed, once it is complete. -/
def identified (sizeofId : Nat) (p : ConnectionRpcHandlerParser) : ConnectionRpcHandlerParser :=
  if p.item = 0 then (p.parseClientId sizeofId).getD p else p

/-- The client is identified once. -/
theorem identified_of_ne (h : p.item ≠ 0) : p.identified sizeofId = p := if_neg h

/-- First the client is identified, then a step is parsed. -/
theorem parse_eq : p.parse sizeofId = (p.identified sizeofId).parseStep := by
  unfold parse identified
  split
  · next hitem =>
      cases p.parseClientId sizeofId with
      | none =>
          dsimp only [Option.getD_none]
          unfold parseStep
          rw [hitem]
          rfl
      | some p => rfl
  · rfl

theorem item_parseClientId (h : p.parseClientId sizeofId = some p') : p'.item = p.item + 1 := by
  unfold parseClientId at h
  split at h
  · cases h
    rfl
  · cases h

/-- Either nothing more is known, or the client. -/
theorem identified_cases (sizeofId : Nat) (p : ConnectionRpcHandlerParser) :
    p.identified sizeofId = p ∨
      p.item = 0 ∧ p.parseClientId sizeofId = some (p.identified sizeofId) := by
  unfold identified
  split
  · next hitem =>
      cases p.parseClientId sizeofId with
      | none => exact .inl rfl
      | some q => exact .inr ⟨hitem, rfl⟩
  · exact .inl rfl

/-- The id is parsed before or after more bytes. -/
theorem identified_feed (bs : Bytes) (h : (p.identified sizeofId).item ≠ 0) :
    (p.feed bs).identified sizeofId = (p.identified sizeofId).feed bs := by
  rcases identified_cases sizeofId p with heq | ⟨hitem, hid⟩
  · rw [heq] at h ⊢
    exact identified_of_ne h
  · have hitem' : (p.feed bs).item = 0 := hitem
    calc (p.feed bs).identified sizeofId
        = ((p.feed bs).parseClientId sizeofId).getD (p.feed bs) := if_pos hitem'
      _ = (p.identified sizeofId).feed bs := by rw [parseClientId_feed bs hid, Option.getD_some]

/-- A step is parsed past the id. -/
theorem item_of_parseStep (h : p.parseStep = (some s, p')) :
    p'.item = p.item + 1 ∧ p.item ≠ 0 ∧ p.item < 3 := by
  rcases parseStep_cases h with ⟨ho, -⟩ | ⟨-, hitem, hp⟩ | ⟨-, hitem, hp⟩
  · cases ho
  · refine ⟨item_parseConnectionInfo hp, ?_⟩
    rw [hitem]
    decide
  · refine ⟨item_parseConnectionInitialized hp, ?_⟩
    rw [hitem]
    decide

theorem le_item_identified (sizeofId : Nat) (p : ConnectionRpcHandlerParser) :
    p.item ≤ (p.identified sizeofId).item := by
  rcases identified_cases sizeofId p with heq | ⟨-, hid⟩
  · exact Nat.le_of_eq (congrArg item heq).symm
  · rw [item_parseClientId hid]
    exact Nat.le_succ _

theorem parse_feed (bs : Bytes) (h : p.parse sizeofId = (some s, p')) :
    (p.feed bs).parse sizeofId = (some s, p'.feed bs) := by
  rw [parse_eq] at h ⊢
  rw [identified_feed bs (item_of_parseStep h).2.1]
  exact parseStep_feed bs h

/-- What was not parsed waits for the rest. -/
theorem parse_feed_none (bs : Bytes) (h : p.parse sizeofId = (none, p')) :
    (p.feed bs).parse sizeofId = (p'.feed bs).parse sizeofId := by
  rw [parse_eq] at h
  rcases parseStep_cases h with ⟨-, rfl⟩ | ⟨ho, -⟩ | ⟨ho, -⟩
  · rw [parse_eq, parse_eq]
    rcases identified_cases sizeofId p with heq | ⟨-, hid⟩
    · rw [heq]
    · have hne : (p.identified sizeofId).item ≠ 0 := by
        rw [item_parseClientId hid]
        exact Nat.succ_ne_zero _
      have hne' : ((p.identified sizeofId).feed bs).item ≠ 0 := hne
      rw [identified_feed bs hne, identified_of_ne hne']
  · cases ho
  · cases ho

/-! ### Steps -/

/-- A step, with what the handler reads of the parser. -/
structure Report where
  step : Step
  clientId : Nat
  connectionInfo : Bytes
  deriving DecidableEq

/-- What the handler reads when it is told a step. -/
def report (p : ConnectionRpcHandlerParser) (s : Step) : Report :=
  ⟨s, p.clientId, p.connectionInfo⟩

/-- One call of `parse`, with what it told. -/
def parseReport (sizeofId : Nat) (p : ConnectionRpcHandlerParser) :
    Option Report × ConnectionRpcHandlerParser :=
  ((p.parse sizeofId).1.map (p.parse sizeofId).2.report, (p.parse sizeofId).2)

/-- What the handler is told is a step that was parsed. -/
theorem parseReport_eq_some {r : Report} (h : p.parseReport sizeofId = (some r, p')) :
    p.parse sizeofId = (some r.step, p') ∧ r = p'.report r.step := by
  obtain ⟨o, q, hp⟩ : ∃ o q, p.parse sizeofId = (o, q) := ⟨_, _, rfl⟩
  unfold parseReport at h
  rw [hp] at h ⊢
  cases o with
  | none => cases h
  | some s =>
      cases h
      exact ⟨rfl, rfl⟩

theorem parseReport_of_some (h : p.parse sizeofId = (some s, p')) :
    p.parseReport sizeofId = (some (p'.report s), p') := by
  unfold parseReport
  rw [h]
  rfl

theorem parse_of_parseReport_none (h : p.parseReport sizeofId = (none, p')) :
    p.parse sizeofId = (none, p') := by
  obtain ⟨o, q, hp⟩ : ∃ o q, p.parse sizeofId = (o, q) := ⟨_, _, rfl⟩
  unfold parseReport at h
  rw [hp] at h ⊢
  cases o with
  | none =>
      cases h
      rfl
  | some s => cases h

theorem parseReport_congr {q : ConnectionRpcHandlerParser}
    (h : p.parse sizeofId = q.parse sizeofId) :
    p.parseReport sizeofId = q.parseReport sizeofId := by
  unfold parseReport
  rw [h]

/-- The loop of `UniversalConnectionRpcHandler::feed` around the parser. -/
def incremental (sizeofId : Nat) : Incremental UInt8 ConnectionRpcHandlerParser Report where
  parse p := p.parseReport sizeofId
  feed := feed
  rank p := 3 - p.item
  rank_lt := by
    intro p p' r h
    have hp := (parseReport_eq_some h).1
    rw [parse_eq] at hp
    have hstep := item_of_parseStep hp
    have hle := le_item_identified sizeofId p
    omega
  feed_nil p := congrArg (fun buf => { p with parsingBuf := buf }) (List.append_nil _)
  feed_append p as bs := congrArg (fun buf => { p with parsingBuf := buf })
    (List.append_assoc ..).symm
  parse_feed := by
    intro p p' r bs h
    obtain ⟨hp, hr⟩ := parseReport_eq_some h
    rw [parseReport_of_some (parse_feed bs hp), hr]
    rfl
  parse_feed_none bs h := parseReport_congr (parse_feed_none bs (parse_of_parseReport_none h))

theorem item_of_parseReport {r : Report} (h : p.parseReport sizeofId = (some r, p')) :
    p.item < p'.item ∧ 2 ≤ p'.item ∧ (2 ≤ p.item → r.step = .step2) := by
  have hp := (parseReport_eq_some h).1
  rw [parse_eq] at hp
  obtain ⟨hitem, hne, -⟩ := item_of_parseStep hp
  have hle := le_item_identified sizeofId p
  refine ⟨by omega, by omega, fun htwo => ?_⟩
  rcases parseStep_cases hp with ⟨ho, -⟩ | ⟨-, hone, -⟩ | ⟨ho, -⟩
  · cases ho
  · omega
  · exact Option.some.inj ho

theorem step2_of_le (p : ConnectionRpcHandlerParser) (h : 2 ≤ p.item) :
    ∀ r ∈ ((incremental sizeofId).drain p).1, r.step = .step2 := by
  induction hn : 3 - p.item using Nat.strongRecOn generalizing p with
  | ind n ih =>
      obtain ⟨o, p', hp⟩ : ∃ o p', p.parseReport sizeofId = (o, p') := ⟨_, _, rfl⟩
      cases o with
      | none =>
          have hnone : (incremental sizeofId).parse p = (none, p') := hp
          rw [Incremental.drain_of_none hnone]
          nofun
      | some r =>
          have hsome : (incremental sizeofId).parse p = (some r, p') := hp
          obtain ⟨hlt, htwo, hstep⟩ := item_of_parseReport hp
          rw [Incremental.drain_of_some hsome]
          intro r' hr'
          rcases List.mem_cons.mp hr' with rfl | hr'
          · exact hstep h
          · exact ih _ (hn ▸ (incremental sizeofId).rank_lt hsome) p' htwo rfl r' hr'

/-- Only the first step that is reported can be a connection request. -/
theorem step2_of_mem_tail (p : ConnectionRpcHandlerParser) :
    ∀ r ∈ ((incremental sizeofId).drain p).1.tail, r.step = .step2 := by
  obtain ⟨o, p', hp⟩ : ∃ o p', p.parseReport sizeofId = (o, p') := ⟨_, _, rfl⟩
  cases o with
  | none =>
      have hnone : (incremental sizeofId).parse p = (none, p') := hp
      rw [Incremental.drain_of_none hnone]
      nofun
  | some r =>
      have hsome : (incremental sizeofId).parse p = (some r, p') := hp
      rw [Incremental.drain_of_some hsome]
      exact step2_of_le p' (item_of_parseReport hp).2.1

/-! ### What a stream says -/

theorem ofCString_eq_done {msg : Bytes} (h : msg.length = 4) :
    ofCString msg = done ↔ msg = done := by
  unfold ofCString
  constructor
  · intro heq
    have hinit : done <+: msg := heq ▸ List.takeWhile_prefix _
    exact (hinit.eq_of_length h.symm).symm
  · rintro rfl
    rfl

/-- The parser after the chunks `cs`, and the steps that it reported. -/
def parseChunks (sizeofId : Nat) (cs : List Bytes) : List Report × ConnectionRpcHandlerParser :=
  (incremental sizeofId).run {} cs

variable {buf id info rest : Bytes}

theorem parseClientId_append (hid : id.length = sizeofId) (hbuf : p.parsingBuf = id ++ rest) :
    p.parseClientId sizeofId = some { p with
      clientId := ofLe id
      parsingBuf := rest
      item := p.item + 1 } := by
  subst hid
  unfold parseClientId
  rw [hbuf, List.take_left, List.drop_left, if_pos ((List.sublist_append_left ..).length_le)]

theorem parseConnectionInfo_append (hlen : info.length < 2 ^ 32)
    (hbuf : p.parsingBuf = le 4 info.length ++ info ++ rest) :
    p.parseConnectionInfo = some { p with
      connectionInfo := info
      parsingBuf := rest
      item := p.item + 1 } := by
  have hle : (le 4 info.length).length = 4 := length_le ..
  have htake : p.parsingBuf.take 4 = le 4 info.length := by
    rw [hbuf, List.append_assoc, List.take_left' hle]
  have hdrop : p.parsingBuf.drop 4 = info ++ rest := by
    rw [hbuf, List.append_assoc, List.drop_left' hle]
  have hread : ofLe (p.parsingBuf.take 4) = info.length := by
    rw [htake]
    exact ofLe_le_of_lt hlen
  have hlength : p.parsingBuf.length = 4 + info.length + rest.length := by
    rw [hbuf, List.length_append, List.length_append, hle]
  unfold parseConnectionInfo
  rw [if_pos (by omega)]
  dsimp only
  rw [hread, if_pos (by omega), Nat.add_comm info.length 4, ← List.drop_drop, hdrop, List.take_left,
    List.drop_left]

theorem parseConnectionInitialized_eq (p : ConnectionRpcHandlerParser) :
    p.parseConnectionInitialized = if p.parsingBuf.take 4 = done then
      some { p with
        initialized := true
        parsingBuf := p.parsingBuf.drop 4
        item := p.item + 1 }
    else none := by
  unfold parseConnectionInitialized
  by_cases hlen : 4 ≤ p.parsingBuf.length
  · have htake : (p.parsingBuf.take 4).length = 4 := List.length_take_of_le hlen
    rw [if_pos hlen]
    simp only [ofCString_eq_done htake]
  · rw [if_neg hlen, if_neg]
    intro hdone
    have htake := congrArg List.length hdone
    rw [List.length_take] at htake
    have hfour : done.length = 4 := rfl
    omega

/-- Nothing is parsed after the last step. -/
theorem parseReport_of_le (h : 3 ≤ p.item) : p.parseReport sizeofId = (none, p) := by
  have hstep : p.parseStep = (none, p) := by
    unfold parseStep
    split
    · omega
    · omega
    · rfl
  unfold parseReport
  rw [parse_eq, identified_of_ne (by omega), hstep]
  rfl

/-- What follows the connection info. -/
theorem drain_initialized (hitem : p.item = 2) :
    ((incremental sizeofId).drain p).1 =
      if p.parsingBuf.take 4 = done then [p.report .step2] else [] := by
  have hparse : p.parse sizeofId = match p.parseConnectionInitialized with
      | none => (none, p)
      | some p => (some .step2, p) := by
    rw [parse_eq, identified_of_ne (by rw [hitem]; decide)]
    unfold parseStep
    rw [hitem]
    rfl
  rw [parseConnectionInitialized_eq] at hparse
  split
  · next hdone =>
      rw [if_pos hdone] at hparse
      have hsome : (incremental sizeofId).parse p = _ := parseReport_of_some hparse
      have hlast : 3 ≤ p.item + 1 := Nat.succ_le_succ (Nat.le_of_eq hitem.symm)
      rw [Incremental.drain_of_some hsome, Incremental.drain_of_none (parseReport_of_le hlast)]
      rfl
  · next hdone =>
      rw [if_neg hdone] at hparse
      have hnone : (incremental sizeofId).parse p = (none, p) := by
        change p.parseReport sizeofId = _
        unfold parseReport
        rw [hparse]
        rfl
      rw [Incremental.drain_of_none hnone]

theorem parseClientId_eq_some (h : p.parseClientId sizeofId = some p') :
    ∃ id, id.length = sizeofId ∧ p.parsingBuf = id ++ p'.parsingBuf := by
  unfold parseClientId at h
  split at h
  · next hlen =>
      cases h
      exact ⟨_, List.length_take_of_le hlen, (List.take_append_drop ..).symm⟩
  · cases h

theorem parseConnectionInfo_eq_some (h : p.parseConnectionInfo = some p') :
    ∃ info, info.length < 2 ^ 32 ∧
      p.parsingBuf = le 4 info.length ++ info ++ p'.parsingBuf := by
  unfold parseConnectionInfo at h
  dsimp only at h
  split at h
  · next hlen =>
      split at h
      · next hall =>
          cases h
          have hfour : (p.parsingBuf.take 4).length = 4 := List.length_take_of_le hlen
          have hinfo : ((p.parsingBuf.drop 4).take (ofLe (p.parsingBuf.take 4))).length =
              ofLe (p.parsingBuf.take 4) := by
            refine List.length_take_of_le ?_
            rw [List.length_drop]
            exact Nat.le_sub_of_add_le hall
          have hlt := ofLe_lt (p.parsingBuf.take 4)
          have hle := le_ofLe (p.parsingBuf.take 4)
          rw [hfour] at hlt hle
          refine ⟨(p.parsingBuf.drop 4).take (ofLe (p.parsingBuf.take 4)), ?_, ?_⟩
          · rw [hinfo]
            exact hlt
          · dsimp only
            rw [hinfo, hle, Nat.add_comm, ← List.drop_drop, List.append_assoc,
              List.take_append_drop, List.take_append_drop]
      · cases h
  · cases h

/-- A stream that starts with an id and the connection info. -/
theorem reports_of_append (hid : id.length = sizeofId) (hlen : info.length < 2 ^ 32) :
    ((incremental sizeofId).drain (feed {} (id ++ le 4 info.length ++ info ++ rest))).1 =
      ⟨.step1, ofLe id, info⟩ ::
        if rest.take 4 = done then [⟨.step2, ofLe id, info⟩] else [] := by
  obtain ⟨p, hp⟩ : ∃ p, p = feed {} (id ++ le 4 info.length ++ info ++ rest) := ⟨_, rfl⟩
  have hbuf : p.parsingBuf = id ++ (le 4 info.length ++ info ++ rest) := by
    rw [hp, feed, List.nil_append, List.append_assoc, List.append_assoc, List.append_assoc]
  have hitem : p.item = 0 := hp ▸ rfl
  have hstart := parseClientId_append hid hbuf
  obtain ⟨q, hq⟩ : ∃ q, q = { p with
      clientId := ofLe id
      parsingBuf := le 4 info.length ++ info ++ rest
      item := p.item + 1 } := ⟨_, rfl⟩
  rw [← hq] at hstart
  have hinfo := parseConnectionInfo_append hlen (congrArg parsingBuf hq)
  obtain ⟨p₂, hp₂⟩ : ∃ p₂, p₂ = { q with
      connectionInfo := info
      parsingBuf := rest
      item := q.item + 1 } := ⟨_, rfl⟩
  rw [← hp₂] at hinfo
  have hparse : p.parse sizeofId = (some .step1, p₂) := by
    unfold parse parseStep
    rw [if_pos hitem, hstart]
    dsimp only
    rw [hinfo, hq, hitem]
    rfl
  have hreport : (incremental sizeofId).parse p = (some (p₂.report .step1), p₂) :=
    parseReport_of_some hparse
  have hitem₂ : p₂.item = 2 := by rw [hp₂, hq, hitem]
  rw [← hp, Incremental.drain_of_some hreport, drain_initialized hitem₂]
  rw [hp₂, hq]
  rfl

/-- A stream that does not. -/
theorem reports_of_incomplete {bs : Bytes} (h : ¬∃ id info rest : Bytes, id.length = sizeofId ∧
    info.length < 2 ^ 32 ∧ bs = id ++ le 4 info.length ++ info ++ rest) :
    ((incremental sizeofId).drain (feed {} bs)).1 = [] := by
  have hbuf : (feed {} bs).parsingBuf = bs := List.nil_append bs
  obtain ⟨o, p', hp⟩ : ∃ o p', (feed {} bs).parse sizeofId = (o, p') := ⟨_, _, rfl⟩
  cases o with
  | none =>
      have hnone : (incremental sizeofId).parse (feed {} bs) = (none, p') := by
        change (feed {} bs).parseReport sizeofId = _
        unfold parseReport
        rw [hp]
        rfl
      rw [Incremental.drain_of_none hnone]
  | some s =>
      rw [parse_eq] at hp
      obtain ⟨-, hne, -⟩ := item_of_parseStep hp
      rcases identified_cases sizeofId (feed {} bs) with heq | ⟨-, hid⟩
      · rw [heq] at hne
        exact absurd rfl hne
      · obtain ⟨id, hlen, hstart⟩ := parseClientId_eq_some hid
        rcases parseStep_cases hp with ⟨ho, -⟩ | ⟨-, -, hinfo⟩ | ⟨-, hitem, -⟩
        · cases ho
        · obtain ⟨info, hinfo, hrest⟩ := parseConnectionInfo_eq_some hinfo
          refine absurd ⟨id, info, p'.parsingBuf, hlen, hinfo, ?_⟩ h
          rw [← hbuf, hstart, hrest, List.append_assoc, List.append_assoc, List.append_assoc]
        · rw [item_parseClientId hid] at hitem
          cases hitem

/-- **Chunks do not matter**, for every stream and wherever it is cut: what is reported is what is
reported of the stream at once.  It is the first step when the stream starts with an id and a
connection info, with its length before it, then the second one when "DONE" comes next, each with
the id and the info; and it is nothing otherwise. -/
theorem reports_of_chunks (sizeofId : Nat) (cs : List Bytes) :
    (parseChunks sizeofId cs).1 = (parseChunks sizeofId [cs.flatten]).1 ∧
      (∀ id info rest : Bytes, id.length = sizeofId → info.length < 2 ^ 32 →
        cs.flatten = id ++ le 4 info.length ++ info ++ rest →
        (parseChunks sizeofId cs).1 = ⟨.step1, ofLe id, info⟩ ::
          if rest.take 4 = done then [⟨.step2, ofLe id, info⟩] else []) ∧
      ((¬∃ id info rest : Bytes, id.length = sizeofId ∧ info.length < 2 ^ 32 ∧
        cs.flatten = id ++ le 4 info.length ++ info ++ rest) →
        (parseChunks sizeofId cs).1 = []) := by
  have hinit : ((incremental sizeofId).parse {}).1 = none := by
    cases sizeofId <;> rfl
  have hrun : ∀ cs : List Bytes, (parseChunks sizeofId cs).1 =
      ((incremental sizeofId).drain (feed {} cs.flatten)).1 := Incremental.run_fst hinit
  refine ⟨?_, fun id info rest hid hlen hcs => ?_, fun h => ?_⟩
  · rw [hrun, hrun, List.flatten_singleton]
  · rw [hrun, hcs]
    exact reports_of_append hid hlen
  · rw [hrun]
    exact reports_of_incomplete h

end ConnectionRpcHandlerParser

end Ubft.Rpc
