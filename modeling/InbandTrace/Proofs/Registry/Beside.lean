import InbandTrace.Proofs.Registry.Tenure

namespace InbandTrace.Registry

def skip (r : Registry) : Registry := { r with registrations := r.registrations + 1 }

def Operation.Spares (token : Token) : Operation → Prop
  | .register other _ _ _ => other ≠ token
  | _ => True

def Operation.Ambient : Operation → Prop
  | .packet .. | .reap _ => True
  | _ => False

theorem Operation.Ambient.spares {op : Operation} (h : op.Ambient) (token : Token) :
    op.Spares token := by
  cases op with
  | register other ttl s d => exact h.elim
  | _ => trivial

theorem Sound.skip {r : Registry} (h : r.Sound) : r.skip.Sound :=
  ⟨fun e he => Nat.lt_succ_of_lt (h.owned e he), fun k hk => h.unopened k (Nat.le_of_succ_le hk),
    h.tokens, h.owners, h.waits⟩

def touched (r : Registry) (token : Token) (f : Entry → Option Mailbox → Option Mailbox)
    (k : Nat) : Option Mailbox :=
  match r.find? token with
  | none => r.mailbox? k
  | some e => if k = e.mailbox then f e (r.mailbox? k) else r.mailbox? k

theorem mailbox?_resolve (r : Registry) (token : Token) (ip : Net.Ip) (kind : ReplyKind)
    (t : Instant) (k : Nat) : (r.resolve token ip kind t).2.mailbox? k =
      r.touched token (fun e m => m.map (.put (.resolved e.ttl ip (t - e.sentAt) kind))) k := by
  unfold resolve touched
  cases r.find? token with
  | none => rfl
  | some e => exact (mailbox?_deliver ..).trans (by rw [mailbox?_erase])

theorem mailbox?_release (r : Registry) (token : Token) (k : Nat) :
    (r.release token).2.mailbox? k = r.touched token (fun _ m => m.map Mailbox.shut) k := by
  unfold release touched
  cases r.find? token with
  | none => rfl
  | some e => exact (mailbox?_close ..).trans (by rw [mailbox?_erase])

/-- A registry is what it would be without one registration, but for the entry and the mailbox of
that registration. -/
structure Beside (token : Token) (n : Nat) (base r : Registry) : Prop where
  home : base.Sound
  sound : r.Sound
  opened : r.registrations = base.registrations
  rest : r.entries.filter (fun e => e.token != token) = base.entries
  own : ∀ e ∈ r.entries, e.token = token → e.mailbox = n
  past : n < base.registrations
  other : ∀ e ∈ base.entries, e.mailbox ≠ n
  boxes : ∀ k, k ≠ n → r.mailbox? k = base.mailbox? k

namespace Beside

variable {token : Token} {n : Nat} {base r : Registry}

theorem mem_iff (h : Beside token n base r) {e : Entry} :
    e ∈ base.entries ↔ e ∈ r.entries ∧ e.token ≠ token := by
  rw [← h.rest, List.mem_filter, bne_iff_ne]

theorem free (h : Beside token n base r) : base.contains token = false :=
  contains_eq_false_iff.mpr fun _ he => (h.mem_iff.mp he).2

theorem find?_free (h : Beside token n base r) : base.find? token = none := by
  simpa [contains] using h.free

theorem find?_eq (h : Beside token n base r) {other : Token} (hne : other ≠ token) :
    base.find? other = r.find? other := by
  unfold find?
  rw [← h.rest, List.find?_filter]
  congr 1
  funext e
  by_cases he : e.token = other
  · simp [he, hne]
  · simp [he]

theorem contains_eq (h : Beside token n base r) {other : Token} (hne : other ≠ token) :
    base.contains other = r.contains other := by
  rw [contains, contains, h.find?_eq hne]

theorem live (h : Beside token n base r) {e : Entry} (he : e ∈ base.entries) (now : Instant) :
    base.live now e = r.live now e := by
  rw [Registry.live, Registry.live, h.boxes _ (h.other e he)]

theorem shrink (h : Beside token n base r) {base' r' : Registry} (hhome : base'.Sound)
    (hsound : r'.Sound) (hn : base'.registrations = base.registrations)
    (hn' : r'.registrations = r.registrations) (p : Entry → Bool)
    (he : base'.entries = base.entries.filter p) (he' : r'.entries = r.entries.filter p)
    (hboxes : ∀ k, k ≠ n → r'.mailbox? k = base'.mailbox? k) : Beside token n base' r' := by
  refine ⟨hhome, hsound, ?_, ?_, ?_, ?_, ?_, hboxes⟩
  · rw [hn, hn']
    exact h.opened
  · rw [he, he', ← h.rest, List.filter_filter, List.filter_filter]
    exact List.filter_congr fun e _ => Bool.and_comm _ _
  · intro e hin
    rw [he'] at hin
    exact h.own e (List.mem_of_mem_filter hin)
  · rw [hn]
    exact h.past
  · intro e hin
    rw [he] at hin
    exact h.other e (List.mem_of_mem_filter hin)

theorem touched (h : Beside token n base r) (other : Token)
    (f : Entry → Option Mailbox → Option Mailbox) {k : Nat} (hk : k ≠ n) :
    r.touched other f k = base.touched other f k := by
  by_cases hother : other = token
  · have hbase : base.touched other f k = base.mailbox? k := by
      simp only [Registry.touched, hother, h.find?_free]
    rw [hbase, ← h.boxes k hk, Registry.touched]
    split
    · rfl
    · rename_i e hfind
      obtain ⟨he, htoken⟩ := find?_eq_some hfind
      rw [if_neg]
      rw [h.own e he (htoken.trans hother)]
      exact hk
  · rw [Registry.touched, Registry.touched, h.find?_eq hother, h.boxes k hk]

theorem register (h : Beside token n base r) {other : Token} (hne : other ≠ token) (ttl : UInt8)
    (s d : Instant) : Beside token n (base.apply (.register other ttl s d)).2
      (r.apply (.register other ttl s d)).2 := by
  simp only [Registry.apply]
  cases hr : r.register other ttl s d with
  | none =>
      have htaken := (h.contains_eq hne).trans (register_eq_none_iff.mp hr)
      rw [register_eq_none_iff.mpr htaken]
      exact h
  | some x =>
      obtain ⟨k, r'⟩ := x
      have hfree := (h.contains_eq hne).trans (register_eq_some_iff.mp hr).1
      obtain ⟨⟨k', base'⟩, hbase⟩ := Option.ne_none_iff_exists'.mp fun hnone =>
        Bool.false_ne_true (hfree.symm.trans (register_eq_none_iff.mp hnone))
      rw [hbase]
      have hsound := h.sound.register hr
      have hhome := h.home.register hbase
      have hbox := h.sound.mailbox?_register hr
      have hbox' := h.home.mailbox?_register hbase
      obtain ⟨-, rfl, rfl⟩ := register_eq_some_iff.mp hr
      obtain ⟨-, rfl, rfl⟩ := register_eq_some_iff.mp hbase
      refine ⟨hhome, hsound, congrArg (· + 1) h.opened, ?_, ?_, Nat.lt_succ_of_lt h.past, ?_, ?_⟩
      · simp [List.filter_append, h.rest, hne, h.opened]
      · intro e he htoken
        rcases List.mem_append.mp he with he | he
        · exact h.own e he htoken
        · rw [List.mem_singleton.mp he] at htoken
          exact absurd htoken hne
      · intro e he
        rcases List.mem_append.mp he with he | he
        · exact h.other e he
        · rw [List.mem_singleton.mp he]
          exact (Nat.ne_of_lt h.past).symm
      · intro k hk
        rw [hbox, hbox', h.opened, h.boxes k hk]

theorem restamp (h : Beside token n base r) (other : Token) (s d : Instant) :
    Beside token n (base.restamp other s d).2 (r.restamp other s d).2 := by
  refine ⟨h.home.restamp .., h.sound.restamp .., h.opened, ?_, ?_, h.past, ?_, h.boxes⟩
  · rw [Registry.restamp, Registry.restamp, ← h.rest, List.filter_map]
    congr 1
    refine List.filter_congr fun e _ => ?_
    dsimp only [Function.comp]
    split <;> rfl
  · intro e he htoken
    obtain ⟨e', he', rfl⟩ := List.mem_map.mp he
    split at htoken <;> split <;> exact h.own e' he' htoken
  · intro e he
    obtain ⟨e', he', rfl⟩ := List.mem_map.mp he
    split <;> exact h.other e' he'

theorem resolve (h : Beside token n base r) (other : Token) (ip : Net.Ip) (kind : ReplyKind)
    (t : Instant) :
    Beside token n (base.resolve other ip kind t).2 (r.resolve other ip kind t).2 := by
  refine h.shrink (h.home.resolve ..) (h.sound.resolve ..) (registrations_resolve ..)
    (registrations_resolve ..) (fun e => e.token != other) (entries_resolve ..)
    (entries_resolve ..) fun k hk => ?_
  rw [mailbox?_resolve, mailbox?_resolve]
  exact h.touched other _ hk

theorem release (h : Beside token n base r) (other : Token) :
    Beside token n (base.release other).2 (r.release other).2 := by
  refine h.shrink (h.home.release _) (h.sound.release _) (registrations_release ..)
    (registrations_release ..) (fun e => e.token != other) (entries_release ..)
    (entries_release ..) fun k hk => ?_
  rw [mailbox?_release, mailbox?_release]
  exact h.touched other _ hk

theorem reap (h : Beside token n base r) (now : Instant) :
    Beside token n (base.reap now).2 (r.reap now).2 := by
  refine h.shrink (h.home.reap now) (h.sound.reap now) (by simp) (by simp) (r.live now) ?_ (by simp)
    fun k hk => ?_
  · rw [entries_reap]
    exact List.filter_congr fun e he => h.live he now
  · have hsame : k ∈ (r.entries.filter fun e => !r.live now e).map Entry.mailbox ↔
        k ∈ (base.entries.filter fun e => !base.live now e).map Entry.mailbox := by
      simp only [List.mem_map, List.mem_filter]
      constructor
      · rintro ⟨e, ⟨he, hdead⟩, rfl⟩
        have hbase : e ∈ base.entries := h.mem_iff.mpr ⟨he, fun htoken => hk (h.own e he htoken)⟩
        exact ⟨e, ⟨hbase, by rwa [h.live hbase]⟩, rfl⟩
      · rintro ⟨e, ⟨he, hdead⟩, rfl⟩
        exact ⟨e, ⟨(h.mem_iff.mp he).1, by rwa [← h.live he]⟩, rfl⟩
    rw [mailbox?_reap, mailbox?_reap, h.boxes k hk]
    simp only [hsame]

theorem receive (h : Beside token n base r) (m : Nat) :
    Beside token n (base.receive m).2 (r.receive m).2 := by
  refine h.shrink (h.home.receive m) (h.sound.receive m) (by simp) (by simp) (fun _ => true)
    (by simp) (by simp) fun k hk => ?_
  rw [mailbox?_receive, mailbox?_receive, h.boxes k hk]

theorem drop (h : Beside token n base r) (m : Nat) :
    Beside token n (base.drop m) (r.drop m) := by
  refine h.shrink (h.home.drop m) (h.sound.drop m) rfl rfl (fun _ => true)
    (List.filter_true _).symm (List.filter_true _).symm fun k hk => ?_
  rw [mailbox?_drop, mailbox?_drop, h.boxes k hk]

theorem apply (h : Beside token n base r) {op : Operation} (hop : op.Spares token) :
    Beside token n (base.apply op).2 (r.apply op).2 := by
  cases op with
  | register other ttl s d => exact h.register hop ttl s d
  | resolve other ip kind t => exact h.resolve other ip kind t
  | restamp other s d => exact h.restamp other s d
  | release other => exact h.release other
  | packet data source t =>
      simp only [Registry.apply, dispatch_eq]
      cases Packet.Reply.ofDatagram data source with
      | error e => exact h
      | ok reply => exact h.resolve ..
  | reap now => exact h.reap now
  | receive m => exact h.receive m
  | drop m => exact h.drop m

theorem after (h : Beside token n base r) {ops : List Operation}
    (hops : ∀ op ∈ ops, op.Spares token) : Beside token n (base.after ops) (r.after ops) := by
  induction ops generalizing base r with
  | nil => exact h
  | cons op rest ih =>
      exact ih (h.apply (hops op List.mem_cons_self)) fun op' hop' =>
        hops op' (List.mem_cons_of_mem _ hop')

theorem enter {r r' : Registry} (hs : r.Sound) {ttl : UInt8} {s d : Instant}
    (hr : r.register token ttl s d = some (n, r')) : Beside token n r.skip r' := by
  have hsound := hs.register hr
  have hbox := hs.mailbox?_register hr
  obtain ⟨hfree, rfl, rfl⟩ := register_eq_some_iff.mp hr
  have htokens := contains_eq_false_iff.mp hfree
  refine ⟨hs.skip, hsound, rfl, ?_, ?_, Nat.lt_succ_self _, ?_, ?_⟩
  · have hall : r.entries.filter (fun e => e.token != token) = r.entries :=
      entries_erase_of_not_contains hfree
    simp [hall, Registry.skip]
  · intro e he htoken
    rcases List.mem_append.mp he with he | he
    · exact absurd htoken (htokens e he)
    · rw [List.mem_singleton.mp he]
  · intro e he
    exact Nat.ne_of_lt (hs.owned e he)
  · intro k hk
    rw [hbox, if_neg hk]
    rfl

theorem forget (h : Beside token n base r) :
    ((r.release token).2.drop n).entries = base.entries ∧
      ((r.release token).2.drop n).mailbox? n = none ∧
      ∀ k, k ≠ n → ((r.release token).2.drop n).mailbox? k = base.mailbox? k := by
  refine ⟨?_, ?_, fun k hk => ?_⟩
  · rw [← h.rest]
    exact entries_release r token
  · rw [mailbox?_drop, if_pos rfl]
  · rw [mailbox?_drop, if_neg hk, (h.release token).boxes k hk]
    simp only [Registry.release, h.find?_free]

end Beside

section

variable (r : Registry)

theorem close_skip (n : Nat) : r.skip.close n = (r.close n).skip := by
  have hsame : r.skip.mailbox? n = r.mailbox? n := rfl
  unfold close
  rw [hsame]
  split <;> rfl

theorem resolve_skip (token : Token) (ip : Net.Ip) (kind : ReplyKind) (t : Instant) :
    (r.skip.resolve token ip kind t).2 = (r.resolve token ip kind t).2.skip := by
  have hsame : r.skip.find? token = r.find? token := rfl
  unfold resolve
  rw [hsame]
  cases r.find? token with
  | none => rfl
  | some e =>
      have hbox : (r.skip.erase token).mailbox? e.mailbox =
          (r.erase token).mailbox? e.mailbox := rfl
      simp only [deliver, hbox]
      split <;> rfl

theorem reap_skip (now : Instant) : (r.skip.reap now).2 = (r.reap now).2.skip := by
  have hfold : ∀ (dead : List Entry) (r : Registry),
      dead.foldl (fun s e => s.close e.mailbox) r.skip =
        (dead.foldl (fun s e => s.close e.mailbox) r).skip := by
    intro dead
    induction dead with
    | nil => exact fun _ => rfl
    | cons e rest ih =>
        intro r
        rw [List.foldl_cons, List.foldl_cons, close_skip, ih]
  exact hfold _ { r with entries := r.entries.filter (r.live now) }

end

theorem after_skip {r : Registry} {ops : List Operation} (h : ∀ op ∈ ops, op.Ambient) :
    r.skip.after ops = (r.after ops).skip := by
  induction ops generalizing r with
  | nil => rfl
  | cons op rest ih =>
      have hfirst : (r.skip.apply op).2 = (r.apply op).2.skip := by
        have hop := h op List.mem_cons_self
        cases op with
        | packet data source t =>
            simp only [apply, dispatch_eq]
            split
            · rfl
            · exact r.resolve_skip ..
        | reap now => exact r.reap_skip now
        | _ => exact hop.elim
      change (r.skip.apply op).2.after rest = ((r.apply op).2.after rest).skip
      rw [hfirst, ih fun op' hop' => h op' (List.mem_cons_of_mem _ hop')]

theorem not_contains_apply {r : Registry} {token : Token} (h : r.contains token = false)
    {op : Operation} (hop : op.Spares token) : (r.apply op).2.contains token = false := by
  have hfree := contains_eq_false_iff.mp h
  have herase : ∀ other, ∀ e ∈ (r.erase other).entries, e.token ≠ token := fun other e he =>
    hfree e (List.mem_of_mem_filter he)
  rw [contains_eq_false_iff]
  intro e he
  cases op with
  | register other ttl s d =>
      simp only [apply] at he
      split at he
      · exact hfree e he
      · rename_i hr
        obtain ⟨-, rfl, rfl⟩ := register_eq_some_iff.mp hr
        rcases List.mem_append.mp he with he | he
        · exact hfree e he
        · rw [List.mem_singleton.mp he]
          exact hop
  | resolve other ip kind t => exact herase other e (entries_resolve r .. ▸ he)
  | restamp other s d =>
      obtain ⟨e', he', rfl⟩ := List.mem_map.mp he
      split <;> exact hfree e' he'
  | release other => exact herase other e (entries_release r other ▸ he)
  | packet data source t =>
      simp only [apply, dispatch_eq] at he
      split at he
      · exact hfree e he
      · exact herase _ e (entries_resolve r .. ▸ he)
  | reap now => exact hfree e (List.mem_of_mem_filter (entries_reap r now ▸ he))
  | receive k => exact hfree e (entries_receive r k ▸ he)
  | drop k => exact hfree e he

theorem not_contains_after {r : Registry} {token : Token} (h : r.contains token = false)
    {ops : List Operation} (hops : ∀ op ∈ ops, op.Spares token) :
    (r.after ops).contains token = false := by
  induction ops generalizing r with
  | nil => exact h
  | cons op rest ih =>
      exact ih (not_contains_apply h (hops op List.mem_cons_self)) fun op' hop' =>
        hops op' (List.mem_cons_of_mem _ hop')

namespace Pending

variable {r : Registry} {token : Token} {ttl : UInt8} {n : Nat} {t : Tenure}

theorem free_of_endedBy (h : r.Pending token ttl n t) {op : Operation}
    (hend : t.endedBy token op = true) : (r.apply op).2.contains token = false := by
  cases ha : op.arrival? with
  | none => exact (h.ended hend (.inl ha)).2.1
  | some a =>
      have htoken : a.token = token := by simpa [t.endedBy_of_arrival ha] using hend
      cases hheld : t.held with
      | false => exact (h.ended hend (.inr hheld)).2.1
      | true => exact (h.answered ha htoken hheld).2.1

theorem find?_after (h : r.Pending token ttl n t) {ops : List Operation}
    (hops : ∀ op ∈ ops, op.Spares token) :
    (r.after ops).find? token = (t.lasting? token n ops).map fun t =>
      ⟨token, ttl, t.sentAt, t.deadline, n⟩ := by
  induction ops generalizing r t with
  | nil => exact h.sound.find?_of_mem h.entry
  | cons op rest ih =>
      have hrest : ∀ op' ∈ rest, op'.Spares token := fun op' hop' =>
        hops op' (List.mem_cons_of_mem _ hop')
      rw [Tenure.lasting?]
      split
      · rename_i hend
        have hfree : (r.after (op :: rest)).contains token = false :=
          not_contains_after (h.free_of_endedBy hend) hrest
        simpa [Registry.contains] using hfree
      · rename_i hgoes
        exact ih (h.apply (by simpa using hgoes)) hrest

end Pending

theorem Tenure.lasting?_of_ambient (t : Tenure) (token : Token) (n : Nat) {ops : List Operation}
    (h : ∀ op ∈ ops, op.Ambient) :
    t.lasting? token n ops = if ops.any (t.endedBy token) then none else some t := by
  induction ops with
  | nil => rfl
  | cons op rest ih =>
      have hsame : t.next token n op = t := by
        have hop := h op List.mem_cons_self
        cases op with
        | packet | reap => rfl
        | _ => exact hop.elim
      rw [lasting?, hsame, ih fun op' hop' => h op' (List.mem_cons_of_mem _ hop'), List.any_cons]
      cases t.endedBy token op <;> rfl

end InbandTrace.Registry
