import RedFox32.Kernel.TextMode.Bounds
import RedFox32.Machine.Document

/-!
# `putch` refines an unbounded 80-column terminal

The video memory is the window of an unbounded document of 80-column rows.  The simulation `Shows`
holds the pending scroll in the cursor: both sides scroll only when the next byte arrives.
-/

namespace RedFox32.Kernel.TextMode

open RedFox32.Machine

/-- A character with its colour. -/
abbrev Cell := Byte × Byte

/-- The cell `c` of the video memory. -/
def cellAt (m : Mem) (c : ℕ) : Cell := (m (videoByte (2 * c)), m (videoByte (2 * c + 1)))

/-- A blank stored under the cursor of the document, with room made for it. -/
def documentSpace (colour : Byte) (d : Document Cell) : Document Cell :=
  (d.makeRoom 80 25).store (space, colour)

/-- One byte given to the terminal. -/
def documentPutch (ch colour : Byte) (d : Document Cell) : Document Cell :=
  let d := d.makeRoom 80 25
  if ch = newline then d.nextRow 80
  else if ch = tab then
    documentSpace colour (documentSpace colour (documentSpace colour (documentSpace colour d)))
  else if ch = backspace then d.back (space, colour)
  else d.store (ch, colour)

/-- The document whose first 25 rows are the video memory, the cursor at its start. -/
def initialDocument (m : Mem) : Document Cell where
  grid v := if v < 2000 then cellAt m v else (0, 0)
  cursor := 0
  top := 0

/-- The screen shows the window of the document, the cursor at the same place. -/
structure Shows (s : Screen) (d : Document Cell) : Prop where
  rests : Rests s (d.place 80)
  framed : d.Framed 80 25 (0, 0)
  cells : ∀ c < 2000, cellAt s.mem c = d.grid (80 * d.top + c)

section Simulation

variable {s : Screen} {d : Document Cell} {colour : Byte}

theorem place_makeRoom (h : d.Framed 80 25 ((0, 0) : Cell)) :
    (d.makeRoom 80 25).place 80 = roomAt (d.place 80) := by
  have hle := h.place_le
  unfold roomAt
  split_ifs with hlt
  · rw [h.makeRoom_of_lt (by omega) hlt]
  · rw [h.makeRoom_full (by omega) (by omega)]
    unfold Document.place
    dsimp only
    omega

/-- The cells of the screen that has scrolled by one line. -/
theorem cellAt_scrolled {m : Mem} (h : Scrolled m 160 3840 s) {c : ℕ} (hc : c < 2000) :
    cellAt s.mem c = if c < 1920 then cellAt m (c + 80) else (0, 0) := by
  unfold cellAt
  rw [h.inside _ (by omega), h.inside _ (by omega)]
  split_ifs with h1 h2 h3
  · rfl
  · omega
  · omega
  all_goals first | omega | rfl

theorem Shows.stick (h : Shows s d) : Shows (stickWithinBounds s) (d.makeRoom 80 25) := by
  have hle : d.place 80 ≤ 2000 := h.framed.place_le
  obtain ⟨hframed, -⟩ := h.framed.makeRoom (by omega) (by omega)
  refine ⟨?_, hframed, ?_⟩
  · rw [place_makeRoom h.framed]
    exact stick_rests h.rests
  rcases Nat.lt_or_eq_of_le hle with hlt | hfull
  · rw [stick_of_lt h.rests hlt, h.framed.makeRoom_of_lt (by omega) hlt]
    exact h.cells
  · -- the pending scroll: the rows move up, and the new row is fresh in the document
    obtain ⟨hscr, -⟩ := stick_full (hfull ▸ h.rests)
    rw [h.framed.makeRoom_full (by omega) hfull]
    intro c hc
    rw [cellAt_scrolled hscr hc]
    dsimp only
    split_ifs with h1
    · rw [h.cells _ (by omega)]
      congr 1
      ring
    · exact (h.framed.fresh _ (by omega)).symm

theorem cellAt_putCell (ch colour : Byte) {i c : ℕ} (hi : i < 2000) (hc : c < 2000) :
    cellAt (s.putCell i ch colour).mem c = if c = i then (ch, colour) else cellAt s.mem c := by
  unfold cellAt Screen.putCell
  rw [moveTo_mem, write_videoByte _ _ (by omega) (by omega),
    write_videoByte _ _ (by omega) (by omega), write_videoByte _ _ (by omega) (by omega),
    write_videoByte _ _ (by omega) (by omega)]
  split_ifs <;> first | omega | rfl

theorem Shows.store (h : Shows s d) (hlt : d.place 80 < 2000) (ch : Byte) :
    Shows (s.putCell (d.place 80) ch colour) (d.store (ch, colour)) := by
  have hplace : (d.store (ch, colour)).place 80 = d.place 80 + 1 := by
    have := h.framed.cursor_eq
    unfold Document.place Document.store
    dsimp only
    omega
  refine ⟨?_, h.framed.store hlt _, fun c hc => ?_⟩
  · rw [hplace]
    exact h.rests.putCell hlt
  · rw [cellAt_putCell ch colour hlt hc, h.cells c hc]
    unfold Document.store
    have hcur := h.framed.cursor_eq
    dsimp only
    split_ifs with hcp
    · rw [show 80 * d.top + c = d.cursor by omega, Function.update_self]
    · rw [Function.update_of_ne (by omega)]

theorem Shows.default {ch : Byte} (hn : ch ≠ newline) (ht : ch ≠ tab) (hb : ch ≠ backspace)
    (h : Shows s d) : Shows (putch ch colour s) ((d.makeRoom 80 25).store (ch, colour)) := by
  have hlt := (h.framed.makeRoom (by omega) (by omega)).2
  rw [putch_default_eq colour hn ht hb h.rests, ← place_makeRoom h.framed]
  exact h.stick.store hlt ch

theorem Shows.space (h : Shows s d) :
    Shows (putch space colour s) (documentSpace colour d) :=
  h.default (by decide) (by decide) (by decide)

theorem Shows.newline (h : Shows s d) :
    Shows (putch newline colour s) ((d.makeRoom 80 25).nextRow 80) := by
  obtain ⟨hframed, hlt⟩ := h.framed.makeRoom (by omega) (by omega)
  have hplace : ((d.makeRoom 80 25).nextRow 80).place 80 = 80 * (roomAt (d.place 80) / 80 + 1) := by
    rw [← place_makeRoom h.framed]
    have := hframed.cursor_eq
    unfold Document.place Document.nextRow
    dsimp only
    omega
  refine ⟨?_, hframed.nextRow (by omega) hlt, ?_⟩
  · rw [hplace]
    exact rests_newline colour h.rests
  · rw [putch_newline]
    exact h.stick.cells

theorem Shows.backspace (h : Shows s d) (h0 : s.screenPos ≠ 0) :
    Shows (putch backspace colour s) ((d.makeRoom 80 25).back (TextMode.space, colour)) := by
  obtain ⟨hframed, hlt⟩ := h.framed.makeRoom (by omega) (by omega)
  have hne : d.place 80 ≠ 0 := fun hz => h0 (h.rests.eq_zero_iff.2 hz)
  have hroom := place_makeRoom h.framed
  have hroom0 : (d.makeRoom 80 25).place 80 ≠ 0 := by
    rw [hroom]
    unfold roomAt
    split_ifs <;> omega
  have hplace : ((d.makeRoom 80 25).back (TextMode.space, colour)).place 80 =
      roomAt (d.place 80) - 1 := by
    rw [← hroom]
    have := hframed.cursor_eq
    unfold Document.place Document.back
    dsimp only
    omega
  refine ⟨?_, hframed.back hlt hroom0 _, fun c hc => ?_⟩
  · rw [hplace]
    exact rests_backspace colour h.rests hne
  · rw [putch_backspace_eq colour h.rests hne, moveTo_mem,
      cellAt_putCell _ _ (by omega) hc, h.stick.cells c hc, ← hroom]
    have hcur := hframed.cursor_eq
    unfold Document.back
    dsimp only
    split_ifs with hcp
    · rw [show 80 * (d.makeRoom 80 25).top + c = (d.makeRoom 80 25).cursor - 1 by omega,
        Function.update_self]
    · rw [Function.update_of_ne (by omega)]

/-- **One byte.** -/
theorem putch_shows (ch colour : Byte) (h : Shows s d) (hb : ch = backspace → s.screenPos ≠ 0) :
    Shows (putch ch colour s) (documentPutch ch colour d) := by
  unfold documentPutch
  split_ifs with h1 h2 h3
  · subst h1
    exact h.newline
  · subst h2
    rw [putch_tab]
    exact h.stick.space.space.space.space
  · subst h3
    exact h.backspace (hb rfl)
  · exact h.default h1 h2 h3

theorem initialDocument_shows (mem : Mem) (pos : Word) :
    Shows (setupScreen mem pos) (initialDocument mem) := by
  refine ⟨setupScreen_rests mem pos, ⟨by simp [initialDocument], by simp [initialDocument],
    fun v hv => ?_⟩, fun c hc => ?_⟩
  · have hv' : 2000 ≤ v := hv
    exact if_neg (by omega)
  · have e : 80 * (initialDocument mem).top + c = c := by simp [initialDocument]
    rw [e]
    exact (if_pos hc).symm

/-- **Every sequence of bytes**, by induction on the sequence; `Shows` is kept by each byte. -/
theorem run_shows (bytes : List (Byte × Byte)) :
    ∀ s d, Shows s d →
      (∀ t ∈ trace (fun s b => putch b.1 b.2 s) s bytes,
        t.label.1 = backspace → t.pre.screenPos ≠ 0) →
      Shows (bytes.foldl (fun s b => putch b.1 b.2 s) s)
        (bytes.foldl (fun d b => documentPutch b.1 b.2 d) d) := by
  induction bytes with
  | nil => exact fun _ _ h _ => h
  | cons b bytes ih =>
    intro s d h hb
    have hone := putch_shows b.1 b.2 h (hb _ (List.mem_cons_self ..))
    exact ih _ _ hone fun t ht => hb t (List.mem_cons_of_mem _ ht)

end Simulation

/-- **`putch` refines the terminal**: if no backspace arrives with `ScreenPos = 0`, the video memory
shows the window of the document and `ScreenPos` is twice the place of the cursor in it. -/
theorem putch_refines_terminal (mem : Mem) (pos : Word) (bytes : List (Byte × Byte))
    (hb : ∀ t ∈ trace (fun s b => putch b.1 b.2 s) (setupScreen mem pos) bytes,
      t.label.1 = backspace → t.pre.screenPos ≠ 0) :
    let s := bytes.foldl (fun s b => putch b.1 b.2 s) (setupScreen mem pos)
    let d := bytes.foldl (fun d b => documentPutch b.1 b.2 d) (initialDocument mem)
    (∀ r < 25, ∀ x < 80, cellAt s.mem (80 * r + x) = d.grid (80 * (d.top + r) + x)) ∧
      (s.screenPos.toNat : ℤ) = 2 * ((d.cursor : ℤ) - 80 * d.top) := by
  intro s d
  have h : Shows s d := run_shows bytes _ _ (initialDocument_shows mem pos) hb
  refine ⟨fun r hr x hx => ?_, ?_⟩
  · rw [h.cells _ (by omega)]
    congr 1
    ring
  · have h1 := h.rests.pos_toNat
    have h2 := h.framed.cursor_eq
    omega

/-- A letter and a backspace. -/
theorem putch_refines_terminal_letter_backspace :
    let bytes : List (Byte × Byte) := [(0x41, 0x0B), (backspace, 0x0B)]
    let s := bytes.foldl (fun s b => putch b.1 b.2 s) (setupScreen (fun _ => 0) 0)
    let d := bytes.foldl (fun d b => documentPutch b.1 b.2 d) (initialDocument fun _ => 0)
    (∀ r < 25, ∀ x < 80, cellAt s.mem (80 * r + x) = d.grid (80 * (d.top + r) + x)) ∧
      (s.screenPos.toNat : ℤ) = 2 * ((d.cursor : ℤ) - 80 * d.top) := by
  refine putch_refines_terminal _ 0 _ fun t ht => ?_
  have hA := rests_default 0x41 0x0B (by decide) (by decide) (by decide)
    (setupScreen_rests (fun _ => 0) 0)
  simp only [trace, List.mem_cons, List.not_mem_nil, or_false] at ht
  rcases ht with rfl | rfl
  · intro hb
    exact absurd hb (by decide)
  · intro _ h0
    exact absurd (hA.eq_zero_iff.1 h0) (by decide)

end RedFox32.Kernel.TextMode
