import InbandTrace.Text.Utf8
/-!
What a terminal shows of a text. Control sequences are left out, and so are the control characters
other than those that move the text on.
-/

namespace InbandTrace.Text

inductive Terminal where
  | ground
  | escape
  | designation
  /-- A control sequence, up to its final character. -/
  | control
  /-- A command to the operating system, up to a bell. -/
  | command
  /-- A device control string, of which nothing has come yet. -/
  | device
  | deviceParameters
  | deviceIntermediates
  /-- The body of a string, up to the byte `9C`. -/
  | body
  deriving DecidableEq, Repr

def movesOn (c : Char) : Bool := c = '\t' || c = '\n' || c = '\x0c' || c = '\r'

namespace Terminal

def breaksOff : Terminal → Bool
  | .ground | .escape | .designation | .control => true
  | .command | .device | .deviceParameters | .deviceIntermediates | .body => false

def opened (c : Char) : Terminal :=
  if c ≤ '/' then .designation
  else if c = '[' then .control
  else if c = ']' then .command
  else if c = 'P' then .device
  else if c = 'X' || c = '^' || c = '_' then .body
  else .ground

def afterGraphic : Terminal → Char → Terminal
  | .ground, _ => .ground
  | .escape, c => opened c
  | .designation, c => if c ≤ '/' then .designation else .ground
  | .control, c => if c ≤ '?' then .control else .ground
  | .command, _ => .command
  | .device, c =>
      if c ≤ '/' then .deviceIntermediates else if c ≤ '?' then .deviceParameters else .body
  | .deviceParameters, c =>
      if c ≤ '/' then .deviceIntermediates else if c ≤ ';' then .deviceParameters else .body
  | .deviceIntermediates, c => if c ≤ '/' then .deviceIntermediates else .body
  | .body, _ => .body

def afterWide (t : Terminal) (c : Char) : Terminal :=
  if t = .body ∧ (String.utf8EncodeChar c).contains 0x9C then .ground else t

/-- After any character. Three control characters count everywhere. -/
def after (t : Terminal) (c : Char) : Terminal :=
  if c = '\x1b' then .escape
  else if c = '\x18' ∨ c = '\x1a' then .ground
  else if '\x80' ≤ c then t.afterWide c
  else if ' ' ≤ c ∧ c ≤ '~' then t.afterGraphic c
  else if movesOn c ∧ t.breaksOff then .ground
  else if c = '\x07' ∧ t = .command then .ground
  else t

def shows (t : Terminal) (c : Char) : Bool :=
  if movesOn c then t.breaksOff
  else t = .ground && (decide (' ' ≤ c) && c != '\x7f')

def shown : Terminal → List Char → List Char
  | _, [] => []
  | t, c :: rest =>
      if t.shows c then c :: (t.after c).shown rest else (t.after c).shown rest

theorem shown_sublist (t : Terminal) (s : List Char) : (t.shown s).Sublist s := by
  induction s generalizing t with
  | nil => simp [shown]
  | cons c rest ih =>
      simp only [shown]
      split
      · exact (ih _).cons_cons c
      · exact (ih _).cons c

theorem after_ground {c : Char} (h : c ≠ '\x1b') : ground.after c = .ground := by
  simp [after, afterWide, afterGraphic, h]

theorem after_of_movesOn {t : Terminal} {c : Char} (h : movesOn c = true)
    (ht : t.breaksOff = true) : t.after c = .ground := by
  simp only [movesOn, Bool.or_eq_true, decide_eq_true_eq] at h
  rcases h with ((rfl | rfl) | rfl) | rfl <;> cases t <;> simp_all [breaksOff] <;> decide

theorem after_of_shows {t : Terminal} {c : Char} (h : t.shows c = true) : t.after c = .ground := by
  by_cases hm : movesOn c = true
  · exact after_of_movesOn hm (by simpa [shows, hm] using h)
  · rw [shows, if_neg hm] at h
    simp only [Bool.and_eq_true, decide_eq_true_eq] at h
    obtain ⟨rfl, hc, -⟩ := h
    exact after_ground (by rintro rfl; exact absurd hc (by decide))

end Terminal

def shown (s : List Char) : List Char := Terminal.ground.shown s

theorem shown_sublist (s : List Char) : (shown s).Sublist s := Terminal.ground.shown_sublist s

end InbandTrace.Text
