import InbandTrace.Trace.Basic

namespace InbandTrace

namespace World

structure Heeds (w w' : World) : Prop where
  stopped : w.engine.stopped → w'.engine.stopped
  cancelled : w.connection.cancelled → w'.connection.cancelled

namespace Heeds

theorem refl (w : World) : Heeds w w := ⟨id, id⟩

theorem trans {a b c : World} (h : Heeds a b) (h' : Heeds b c) : Heeds a c :=
  ⟨fun hs => h'.stopped (h.stopped hs), fun hc => h'.cancelled (h.cancelled hc)⟩

variable {w w' : World}

theorem withRegistry (h : Heeds w w') (r : Registry) : Heeds w (w'.withRegistry r) :=
  ⟨h.stopped, h.cancelled⟩

theorem forget (h : Heeds w w') (token : Token) (mailbox : Nat) :
    Heeds w (w'.forget token mailbox) := ⟨h.stopped, h.cancelled⟩

theorem giveUp (h : Heeds w w') (s : Session) (abort : Abort) :
    Heeds w (w'.giveUp s abort).2 := by
  unfold World.giveUp
  split
  · exact ⟨h.stopped, h.cancelled⟩
  · split
    · exact ⟨h.stopped, h.cancelled⟩
    · exact h

theorem conclude (h : Heeds w w') (sweep : Sweep) (hop : Hop) :
    Heeds w (w'.conclude sweep hop).2 := by
  unfold World.conclude
  split
  · exact h.giveUp ..
  · split
    · exact h.giveUp ..
    · split
      · exact h
      · exact ⟨h.stopped, h.cancelled⟩

theorem await (h : Heeds w w') (sweep : Sweep) {next : Session → Turn}
    (hnext : ∀ s, Heeds w (next s).2) : Heeds w (w'.await sweep next).2 := by
  unfold World.await
  split
  · exact h.giveUp ..
  · exact hnext _

end Heeds

theorem heeds_happen (w : World) (due : Instant) (e : Event) : Heeds w (w.happen due e) := by
  cases e with
  | cancel => exact ⟨id, fun _ => rfl⟩
  | shutdown => exact ⟨fun _ => rfl, id⟩
  | _ => exact ⟨id, id⟩

theorem heeds_settleAgenda (agenda : Agenda) (w : World) : Heeds w (settleAgenda agenda w) := by
  induction agenda generalizing w with
  | nil => exact ⟨id, id⟩
  | cons x rest ih =>
      simp only [settleAgenda]
      split
      · exact (w.heeds_happen x.1 x.2).trans (ih _)
      · exact ⟨id, id⟩

theorem heeds_catchUp (w : World) : Heeds w w.catchUp := heeds_settleAgenda _ _

theorem heeds_statistics (w : World) : Heeds w w.statistics.2 :=
  w.heeds_catchUp.trans ⟨id, id⟩

theorem heeds_setTtl (w : World) (ttl : Nat) : Heeds w (w.setTtl ttl).2 := by
  unfold setTtl Connection.setTtl
  split <;> exact ⟨id, id⟩

theorem heeds_start (w : World) : Heeds w (Sender.start w).2 := by
  have hasked := w.heeds_statistics
  unfold Sender.start
  split
  · exact .refl w
  · split
    · rename_i h
      rwa [h] at hasked
    · rename_i h
      rw [h] at hasked
      split <;> exact hasked

theorem heeds_transmit {s : Sender} {w w' : World} {ttl : UInt8} {n m : Nat}
    {answer : Except Fault Departure} (h : s.transmit w ttl n m = (answer, w')) : Heeds w w' := by
  have hlow := w.heeds_setTtl ttl.toNat
  simp only [Sender.transmit] at h
  split at h
  · rename_i hset
    rw [hset] at hlow
    cases h
    exact hlow
  · rename_i w₁ hset
    rw [hset] at hlow
    have hstamped := (hlow.withRegistry
      (w₁.engine.registry.restamp s.token w₁.now (w₁.now + s.hopTimeout)).2).trans
        (heeds_catchUp _)
    split at h
    · cases h
      exact hstamped
    · cases h
      exact hstamped.trans ⟨id, id⟩

theorem heeds_launch (s : Sender) (w : World) (ttl : UInt8) : Heeds w (s.launch w ttl).2.2 := by
  have hasked := w.heeds_statistics
  simp only [Sender.launch]
  split
  · exact hasked
  · rename_i s₁ m r hres
    have hready := hasked.withRegistry r
    split
    · rename_i h
      exact hready.trans (heeds_transmit h)
    · rename_i w₁ h
      have hsent := hready.trans (heeds_transmit h)
      exact (hsent.trans (w₁.heeds_setTtl s₁.defaultTtl)).forget ..

theorem heeds_land (s : Sender) (w : World) (d : Departure) : Heeds w (s.land w d).2 := by
  have hfirst : Heeds w (if d.pauses then w.catchUp else w) := by
    split
    · exact w.heeds_catchUp
    · exact .refl w
  have hput := hfirst.trans (heeds_setTtl _ s.defaultTtl)
  simp only [Sender.land, Sender.restore]
  split
  · exact hput
  · exact hput.forget ..
  · exact hput.forget ..

theorem heeds_readSignals (flight : Flight) (signals : List Signal) (w : World) :
    Heeds w (readSignals flight signals w).2 := by
  induction signals generalizing w with
  | nil => exact ⟨id, id⟩
  | cons signal rest ih =>
      cases signal with
      | closed => exact ⟨id, id⟩
      | pong payload =>
          simp only [readSignals]
          split
          · split
            · rename_i info w₁ h
              have hasked : Heeds w w₁ := by
                rw [show w₁ = w.query.2 by rw [h]]
                exact ⟨id, id⟩
              split
              · exact ⟨hasked.stopped, hasked.cancelled⟩
              · exact hasked.trans (ih w₁)
            · rename_i fault w₁ h
              have hasked : Heeds w w₁ := by
                rw [show w₁ = w.query.2 by rw [h]]
                exact ⟨id, id⟩
              exact hasked.trans (ih w₁)
          · exact ih w

theorem heeds_opening (w : World) (id : String) : Heeds w (w.opening id).2 := by
  have hstart := w.heeds_start
  unfold opening
  split
  · rename_i h
    rw [h] at hstart
    exact hstart.giveUp ..
  · rename_i h
    rw [h] at hstart
    simp only
    split
    · exact hstart.giveUp ..
    · exact hstart

theorem heeds_probeWhenQuiet (w : World) (sweep : Sweep) (giveUp : Instant) :
    Heeds w (w.probeWhenQuiet sweep giveUp).2 := by
  have hasked := w.heeds_statistics
  have hsent := hasked.trans (heeds_launch sweep.sender w.statistics.2 sweep.ttl)
  simp only [probeWhenQuiet]
  split
  · unfold probe
    split
    · rename_i h
      rwa [h] at hsent
    · rename_i h
      rw [h] at hsent
      exact hsent.await _ fun s => hsent.conclude ..
    · rename_i h
      rw [h] at hsent
      exact hsent.giveUp ..
    · rename_i h
      rw [h] at hsent
      exact hsent.giveUp ..
  · exact hasked

theorem heeds_written (w : World) (sweep : Sweep) (d : Departure) :
    Heeds w (w.written sweep d).2 := by
  have hland := heeds_land sweep.sender w d
  unfold written
  split
  · rename_i h
    rw [h] at hland
    exact hland.giveUp ..
  · rename_i h
    rw [h] at hland
    exact hland.await _ fun s => hland

theorem heeds_look (w : World) (sweep : Sweep) (flight : Flight) :
    Heeds w (w.look sweep flight).2 := by
  have hreceive : Heeds w (w.receive flight.mailbox).2 := ⟨id, id⟩
  unfold look
  split
  · rename_i h
    rw [h] at hreceive
    exact (hreceive.forget ..).conclude ..
  · rename_i h
    rw [h] at hreceive
    exact (hreceive.forget ..).conclude ..
  · rename_i w₁ h
    rw [h] at hreceive
    have hlisten := hreceive.trans
      (w₁.heeds_catchUp.trans (heeds_readSignals flight w₁.catchUp.connection.inbox w₁.catchUp))
    change Heeds w (w₁.listen flight).2 at hlisten
    split
    · rename_i h
      rw [h] at hlisten
      exact (hlisten.forget ..).conclude ..
    · rename_i h
      rw [h] at hlisten
      exact (hlisten.forget ..).giveUp ..
    · rename_i h
      rw [h] at hlisten
      split
      · exact (hlisten.forget ..).conclude ..
      · exact hlisten

end World

namespace Trace

theorem heeds_turn (t : Trace) (now : Instant) (e : Engine) :
    World.Heeds (t.world now e) (t.turn now e).2 := by
  have hsame := World.Heeds.refl (t.world now e)
  simp only [turn]
  split
  · exact World.heeds_opening ..
  · split
    · exact hsame.giveUp ..
    · exact World.heeds_probeWhenQuiet ..
  · exact World.heeds_written ..
  · split
    · exact (hsame.forget ..).giveUp ..
    · exact World.heeds_look ..
  · exact hsame

variable {t u : Trace} {now : Instant} {e : Engine}

theorem isCancelled_step (h : t.isCancelled e) : (t.step now e).1.isCancelled (t.step now e).2 := by
  have hheeds := t.heeds_turn now e
  simp only [step]
  unfold isCancelled at h ⊢
  split at h
  · rename_i hown
    simp only [hown, if_true]
    exact hheeds.cancelled h
  · rename_i hown
    simp only [hown]
    exact hheeds.stopped h

theorem isCancelled_other (h : t.isCancelled e) : t.isCancelled (u.step now e).2 := by
  have hheeds := u.heeds_turn now e
  simp only [step]
  unfold isCancelled at h ⊢
  split
  · rename_i hown
    rwa [if_pos hown] at h
  · rename_i hown
    rw [if_neg hown] at h
    exact hheeds.stopped h

end Trace

end InbandTrace
