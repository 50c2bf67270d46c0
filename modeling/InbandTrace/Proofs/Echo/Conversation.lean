import Mathlib.Data.List.Induction
import Mathlib.Data.List.TakeWhile
import InbandTrace.Echo.Channel

namespace InbandTrace

def Writer.appendAll (w : Writer) (records : List EchoRecord) : Writer :=
  records.foldl (fun w record => (w.append record.toJson).2) w

theorem Writer.appendAll_append (w : Writer) (xs ys : List EchoRecord) :
    w.appendAll (xs ++ ys) = (w.appendAll xs).appendAll ys := by
  simp [appendAll]

theorem Writer.bytes_appendAll {w : Writer} (h : w.room = none) (records : List EchoRecord) :
    (w.appendAll records).bytes =
      w.bytes ++ records.flatMap fun record => Text.utf8 (line record.toJson) := by
  induction records generalizing w with
  | nil => simp [appendAll]
  | cons record records ih =>
      have hrest := ih (append_room h record.toJson)
      rw [append_bytes h] at hrest
      simpa [appendAll] using hrest

def Outgoing.isData : Outgoing → Bool
  | .text _ | .binary _ => true
  | .pong _ | .close => false

namespace EchoChannel

abbrev Message := Timestamp × Incoming

/-- The channel ends with a close, with a failure, and with a message that is not understood. -/
def ends (m : Incoming) : Bool :=
  match m with
  | .text _ | .binary _ => (understand? m).isNone
  | .close => true
  | .ping _ | .pong _ | .broken _ => breaks m

def echo? : Incoming → Option Outgoing
  | .text s => some (.text s)
  | .binary data => some (.binary data)
  | .ping _ | .pong _ | .close | .broken _ => none

def pong? : Incoming → Option Outgoing
  | .ping payload => some (.pong payload)
  | .text _ | .binary _ | .pong _ | .close | .broken _ => none

def reply? (m : Incoming) : Option Outgoing := (echo? m).or (pong? m)

def record? (client : Net.Ip) (m : Message) : Option EchoRecord :=
  match understand? m.2 with
  | some (value, .final id _) =>
      if (Uuid.ofText id).toOption.isSome then some ⟨client, m.1, value⟩ else none
  | some (_, .latency ..) | none => none

def heard (messages : List Message) : List Message := messages.takeWhile fun m => !ends m.2

def echoes (messages : List Message) : List Outgoing := messages.filterMap fun m => echo? m.2

def replies (messages : List Message) : List Outgoing := messages.filterMap fun m => reply? m.2

def records (client : Net.Ip) (messages : List Message) : List EchoRecord :=
  messages.filterMap (record? client)

theorem filter_reply? (m : Incoming) : (reply? m).filter Outgoing.isData = echo? m := by
  cases m <;> rfl

theorem filter_replies (messages : List Message) :
    (replies messages).filter Outgoing.isData = echoes messages := by
  simp [replies, echoes, List.filter_filterMap, filter_reply?]

theorem record?_of_silent (client : Net.Ip) {m : Message} (h : reply? m.2 = none) :
    record? client m = none := by
  cases hm : m.2 <;> simp_all [reply?, echo?, pong?, record?, understand?, content?]

def logged (c : EchoChannel) (m : Message) : EchoChannel :=
  { c with log := c.log.appendAll (record? c.client m).toList }

theorem logged_of_none {c : EchoChannel} {m : Message} (h : record? c.client m = none) :
    c.logged m = c := by
  simp [logged, h, Writer.appendAll]

theorem send_of_none {c : EchoChannel} {frame : Outgoing}
    (h : c.sendFault c.sent.length = none) : c.send frame = { c with sent := c.sent ++ [frame] } := by
  simp [send, h]

theorem send_of_some {c : EchoChannel} {frame : Outgoing} {fault : Fault}
    (h : c.sendFault c.sent.length = some fault) : c.send frame = { c with isOpen := false } := by
  simp [send, h]

theorem answer_of_heard (c : EchoChannel) (m : Message) (frame : Outgoing)
    (h : (understand? m.2).isNone = false) :
    c.answer m.1 m.2 frame = (c.logged m).send frame := by
  cases hu : understand? m.2 with
  | none => simp [hu] at h
  | some understood =>
      obtain ⟨value, message⟩ := understood
      cases message with
      | latency sequence sentAt =>
          simp [answer, hu, logMessage, isLogged, logged, record?, Writer.appendAll]
      | final id latencies =>
          cases hid : (Uuid.ofText id).toOption.isSome <;>
            simp [answer, hu, logMessage, isLogged, logged, record?, hid, Writer.appendAll]

theorem receive_of_heard {c : EchoChannel} (hopen : c.isOpen = true) {m : Message}
    (h : ends m.2 = false) :
    c.receive m.1 m.2 =
      match reply? m.2 with
      | some frame => (c.logged m).send frame
      | none => c := by
  obtain ⟨now, m⟩ := m
  cases m with
  | text s => simpa [receive, hopen, breaks, reply?, echo?] using c.answer_of_heard (now, .text s) _ h
  | binary data =>
      simpa [receive, hopen, breaks, reply?, echo?] using c.answer_of_heard (now, .binary data) _ h
  | ping payload =>
      have hlog : c.logged (now, .ping payload) = c := logged_of_none rfl
      have hfine : breaks (.ping payload) = false := h
      simp [receive, hopen, hfine, reply?, echo?, pong?, hlog]
  | pong payload =>
      have hfine : breaks (.pong payload) = false := h
      simp [receive, hopen, hfine, reply?, echo?, pong?]
  | close => simp [ends] at h
  | broken fault => simp [ends, breaks] at h

theorem receive_of_ends (c : EchoChannel) {m : Message} (h : ends m.2 = true) :
    (c.receive m.1 m.2).isOpen = false ∧ (c.receive m.1 m.2).log = c.log ∧
      (c.receive m.1 m.2).sent.filter Outgoing.isData = c.sent.filter Outgoing.isData := by
  cases hopen : c.isOpen with
  | false => simp [receive_of_not_isOpen hopen, hopen]
  | true =>
      have hreject : c.reject.isOpen = false ∧ c.reject.log = c.log ∧
          c.reject.sent.filter Outgoing.isData = c.sent.filter Outgoing.isData := by
        cases hfault : c.sendFault c.sent.length <;>
          simp [reject, send, hfault, Outgoing.isData]
      obtain ⟨now, m⟩ := m
      cases m with
      | text s | binary data =>
          simp only [ends, Option.isNone_iff_eq_none] at h
          simpa [receive, hopen, breaks, answer, h] using hreject
      | ping payload | pong payload | broken fault =>
          simp only [ends] at h
          simpa [receive, hopen, h] using hreject
      | close => simp [receive, hopen, breaks]

theorem run_of_not_isOpen {c : EchoChannel} (h : c.isOpen = false) (messages : List Message) :
    c.run messages = c := by
  induction messages with
  | nil => rfl
  | cons m rest ih => simpa [run, receive_of_not_isOpen h] using ih

def served (c : EchoChannel) (messages : List Message) : EchoChannel :=
  { c with
    sent := c.sent ++ replies messages
    log := c.log.appendAll (records c.client messages) }

def cut (c : EchoChannel) (before : List Message) (last : Message) : EchoChannel :=
  { c with
    sent := c.sent ++ replies before
    log := c.log.appendAll (records c.client (before ++ [last]))
    isOpen := false }

theorem records_concat (client : Net.Ip) (messages : List Message) (m : Message) :
    records client (messages ++ [m]) = records client messages ++ (record? client m).toList := by
  cases h : record? client m <;> simp [records, h]

theorem replies_concat {m : Message} {frame : Outgoing} (h : reply? m.2 = some frame)
    (messages : List Message) : replies (messages ++ [m]) = replies messages ++ [frame] := by
  simp [replies, h]

theorem served_concat (c : EchoChannel) (messages : List Message) {m : Message} {frame : Outgoing}
    (h : reply? m.2 = some frame) :
    c.served (messages ++ [m]) =
      { (c.served messages).logged m with
        sent := ((c.served messages).logged m).sent ++ [frame] } := by
  simp [served, logged, replies_concat h, records_concat, Writer.appendAll_append]

theorem cut_eq (c : EchoChannel) (messages : List Message) (m : Message) :
    c.cut messages m = { (c.served messages).logged m with isOpen := false } := by
  simp [cut, served, logged, records_concat, Writer.appendAll_append]

def Carries (c : EchoChannel) (n : Nat) : Prop := ∀ i < n, c.sendFault i = none

theorem Carries.succ {c : EchoChannel} {n : Nat} (h : c.Carries n) (hn : c.sendFault n = none) :
    c.Carries (n + 1) := by
  intro i hi
  rcases Nat.lt_succ_iff_lt_or_eq.mp hi with hlt | rfl
  · exact h i hlt
  · exact hn

theorem run_of_heard {c : EchoChannel} (hopen : c.isOpen = true) (hsent : c.sent = [])
    {messages : List Message} (h : ∀ m ∈ messages, ends m.2 = false) :
    (c.Carries (replies messages).length ∧ c.run messages = c.served messages) ∨
      ∃ before last after frame fault,
        messages = before ++ last :: after ∧ c.Carries (replies before).length ∧
          reply? last.2 = some frame ∧ c.sendFault (replies before).length = some fault ∧
          c.run messages = c.cut before last ∧ c.run (before ++ [last]) = c.cut before last := by
  induction messages using List.reverseRecOn with
  | nil => exact .inl ⟨nofun, by simp [run, served, replies, records, Writer.appendAll]⟩
  | append_singleton messages m ih =>
      rcases ih fun m hm => h m (List.mem_append_left [_] hm) with
        ⟨hcarry, hrun⟩ | ⟨before, last, after, frame, fault, rfl, hcarry, hreply, hfault, hrun, hcut⟩
      · have hstep := receive_of_heard (c := c.served messages) hopen
          (h m (List.mem_append_right _ (List.mem_singleton_self m)))
        have hnext : c.run (messages ++ [m]) = (c.served messages).receive m.1 m.2 := by
          rw [run_append, hrun]
          rfl
        rw [← hnext] at hstep
        cases hreply : reply? m.2 with
        | none =>
            have hsame : c.served (messages ++ [m]) = c.served messages := by
              simp [served, replies, records, hreply, record?_of_silent c.client hreply]
            rw [hreply] at hstep
            exact .inl ⟨by simpa [replies, hreply] using hcarry, hstep.trans hsame.symm⟩
        | some frame =>
            rw [hreply] at hstep
            have hlength : ((c.served messages).logged m).sent.length = (replies messages).length := by
              simp [logged, served, hsent]
            cases hfault : c.sendFault (replies messages).length with
            | none =>
                rw [← hlength] at hfault
                refine .inl ⟨?_, ?_⟩
                · rw [replies_concat hreply, List.length_append, List.length_singleton]
                  exact hcarry.succ (hlength ▸ hfault)
                · exact (hstep.trans (send_of_none hfault)).trans (served_concat c messages hreply).symm
            | some fault =>
                have hcut : c.run (messages ++ [m]) = c.cut messages m := by
                  rw [← hlength] at hfault
                  exact (hstep.trans (send_of_some hfault)).trans (c.cut_eq messages m).symm
                exact .inr ⟨messages, m, [], frame, fault, rfl, hcarry, hreply, hfault, hcut, hcut⟩
      · refine .inr ⟨before, last, after ++ [m], frame, fault, by simp, hcarry, hreply, hfault, ?_,
          hcut⟩
        rw [run_append, hrun]
        exact run_of_not_isOpen rfl [m]

theorem of_mem_heard {messages : List Message} {m : Message} (h : m ∈ heard messages) :
    ends m.2 = false := by
  simpa using List.mem_takeWhile_imp h

theorem heard_cases (messages : List Message) :
    messages = heard messages ∨
      ∃ m rest, messages = heard messages ++ m :: rest ∧ ends m.2 = true := by
  induction messages with
  | nil => exact .inl rfl
  | cons m messages ih =>
      cases hm : ends m.2 with
      | true => exact .inr ⟨m, messages, by simp [heard, hm], hm⟩
      | false =>
          have hcons : heard (m :: messages) = m :: heard messages := by simp [heard, hm]
          rw [hcons]
          rcases ih with hall | ⟨last, rest, hsplit, hends⟩
          · exact .inl (congrArg (m :: ·) hall)
          · exact .inr ⟨last, rest, congrArg (m :: ·) hsplit, hends⟩

theorem run_eq_heard (c : EchoChannel) (messages : List Message) :
    (c.run messages).log = (c.run (heard messages)).log ∧
      (c.run messages).sent.filter Outgoing.isData =
        (c.run (heard messages)).sent.filter Outgoing.isData := by
  rcases heard_cases messages with hall | ⟨m, rest, hsplit, hends⟩
  · rw [← hall]
    exact ⟨rfl, rfl⟩
  · obtain ⟨hclosed, hlog, hsent⟩ := (c.run (heard messages)).receive_of_ends hends
    have hrun : c.run messages = (c.run (heard messages)).receive m.1 m.2 := by
      conv_lhs => rw [hsplit, run_append]
      exact run_of_not_isOpen hclosed rest
    rw [hrun]
    exact ⟨hlog, hsent⟩

theorem conversation_of_run (client : Net.Ip) (log : Writer) (sendFault : Nat → Option Fault)
    (messages : List Message) :
    let c : EchoChannel := { client, log, sendFault }
    let e := c.run messages
    ∃ read unread,
      heard messages = read ++ unread ∧
      e.log = log.appendAll (records client read) ∧
      (log.room = none → e.log.bytes = log.bytes ++
        (records client read).flatMap fun record => Text.utf8 (Writer.line record.toJson)) ∧
      ((unread = [] ∧ c.Carries (replies read).length ∧
          e.sent.filter Outgoing.isData = echoes read) ∨
        ∃ before last frame fault,
          read = before ++ [last] ∧ c.Carries (replies before).length ∧
          reply? last.2 = some frame ∧ sendFault (replies before).length = some fault ∧
          e.sent.filter Outgoing.isData = echoes before ∧ e = c.run read) := by
  intro c e
  rcases run_of_heard (c := c) rfl rfl (fun m hm => of_mem_heard hm) with
    ⟨hcarry, hrun⟩ | ⟨before, last, after, frame, fault, hsplit, hcarry, hreply, hfault, hrun, hcut⟩
  · obtain ⟨hlog, hsent⟩ := c.run_eq_heard messages
    have hread : e.log = log.appendAll (records client (heard messages)) :=
      hlog.trans (congrArg EchoChannel.log hrun)
    refine ⟨heard messages, [], (List.append_nil _).symm, hread, fun hroom => ?_,
      .inl ⟨rfl, hcarry, ?_⟩⟩
    · rw [hread, Writer.bytes_appendAll hroom]
    · rw [hsent, hrun]
      exact filter_replies (heard messages)
  · have hall : e = c.cut before last := by
      have hrest := c.run_append (heard messages) (messages.dropWhile fun m => !ends m.2)
      rw [heard, List.takeWhile_append_dropWhile, ← heard, hrun] at hrest
      exact hrest.trans (run_of_not_isOpen rfl _)
    refine ⟨before ++ [last], after, by simp [hsplit], congrArg EchoChannel.log hall, fun hroom => ?_,
      .inr ⟨before, last, frame, fault, rfl, hcarry, hreply, hfault, ?_, hall.trans hcut.symm⟩⟩
    · rw [hall]
      exact Writer.bytes_appendAll hroom _
    · rw [hall]
      exact filter_replies before

end EchoChannel

end InbandTrace
