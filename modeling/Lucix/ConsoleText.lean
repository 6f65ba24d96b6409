import Lucix.FbConsole

/-! The text that the framebuffer console shows, against a terminal of rows and columns that
scrolls by a whole row. The console follows the terminal as long as every scroll finds blank
the cells that its `memset` misses or hits by mistake, and every character has a glyph: those
of negative characters are looked for behind the font. -/
namespace Lucix.FbConsole
open Execution

/-! ### The terminal -/

/-- A screen of characters with a cursor that may stand past the last column. -/
structure Terminal where
  cells : Nat → Nat → UInt8
  x : Nat
  y : Nat

namespace Terminal
variable (scr : Screen)

def blank : Terminal := ⟨fun _ _ => 0, 0, 0⟩

/-- Down one row; below the last row every row moves up and the last one becomes blank. -/
def nextRow (t : Terminal) : Terminal :=
  if t.y + 1 < scr.rows then { t with y := t.y + 1 }
  else { t with cells := fun r c => if r + 1 < scr.rows then t.cells (r + 1) c else 0 }

/-- A cursor past the last column goes to the next row. -/
def wrap (t : Terminal) : Terminal := if scr.cols ≤ t.x then nextRow scr { t with x := 0 } else t

def write (t : Terminal) (c : UInt8) : Terminal :=
  { t with cells := Function.update t.cells t.y (Function.update (t.cells t.y) t.x c) }

def process (t : Terminal) (c : UInt8) : Terminal :=
  if c = 10 then nextRow scr { t.write 0 with x := 0 }
  else if c = 13 then { t with x := 0 }
  else { t.write c with x := t.x + 1 }

def putchar (t : Terminal) (c : UInt8) : Terminal := process scr (wrap scr t) c

def feed (t : Terminal) (str : List UInt8) : Terminal := str.foldl (putchar scr) t

/-- The cursor is on the screen, or past the last column. -/
def Placed (t : Terminal) : Prop := t.x ≤ scr.cols ∧ t.y < scr.rows

section placed
variable {scr : Screen} {t : Terminal}

theorem nextRow_x (t : Terminal) : (nextRow scr t).x = t.x := by
  unfold nextRow
  split_ifs
  · rfl
  · rfl

theorem nextRow_placed (h : Placed scr t) : Placed scr (nextRow scr t) := by
  refine ⟨(nextRow_x t).symm ▸ h.1, ?_⟩
  unfold nextRow
  split_ifs with hmore
  · exact hmore
  · exact h.2

theorem wrap_placed (hcols : 1 ≤ scr.cols) (h : Placed scr t) :
    Placed scr (wrap scr t) ∧ (wrap scr t).x < scr.cols := by
  unfold wrap
  split_ifs with hpast
  · refine ⟨nextRow_placed ⟨Nat.zero_le _, h.2⟩, ?_⟩
    rw [nextRow_x]
    exact hcols
  · exact ⟨h, Nat.lt_of_not_le hpast⟩

theorem putchar_placed (hcols : 1 ≤ scr.cols) (h : Placed scr t) (c : UInt8) : Placed scr (putchar scr t c) := by
  obtain ⟨hplaced, hcell⟩ := wrap_placed hcols h
  unfold putchar process
  split_ifs
  · exact nextRow_placed ⟨Nat.zero_le _, hplaced.2⟩
  · exact ⟨Nat.zero_le _, hplaced.2⟩
  · exact ⟨hcell, hplaced.2⟩

end placed

/-- Every character on the screen has a glyph. -/
def Shown (t : Terminal) : Prop := ∀ r c, t.cells r c < 128

section shown
variable {scr : Screen} {t : Terminal}

theorem blank_shown : Shown blank := by
  intro r c
  show (0 : UInt8) < 128
  decide

theorem nextRow_shown (h : Shown t) : Shown (nextRow scr t) := by
  unfold nextRow
  split_ifs
  · exact h
  · intro r c
    dsimp only
    split_ifs
    · exact h (r + 1) c
    · decide

theorem wrap_shown (h : Shown t) : Shown (wrap scr t) := by
  unfold wrap
  split_ifs
  · exact nextRow_shown (t := { t with x := 0 }) h
  · exact h

theorem write_shown (h : Shown t) {c : UInt8} (hc : c < 128) : Shown (t.write c) := by
  intro r k
  by_cases hrow : r = t.y
  · by_cases hcol : k = t.x
    · simpa [write, hrow, hcol] using hc
    · simpa [write, hrow, hcol] using h t.y k
  · simpa [write, hrow] using h r k

theorem putchar_shown (h : Shown t) {c : UInt8} (hc : c < 128) : Shown (putchar scr t c) := by
  have hwrapped := @wrap_shown scr t h
  unfold putchar process
  split_ifs
  · exact nextRow_shown (t := { (wrap scr t).write 0 with x := 0 }) (write_shown hwrapped (by decide))
  · exact hwrapped
  · exact write_shown hwrapped hc

end shown
end Terminal

/-! ### Scrolls that show no difference -/

/-- The bytes that the scroll clears, from the offset `rows - 1` on. -/
def Cleared (scr : Screen) (o : Nat) : Prop := scr.rows - 1 ≤ o ∧ o < scr.rows - 1 + scr.cols

instance (scr : Screen) (o : Nat) : Decidable (Cleared scr o) := inferInstanceAs (Decidable (_ ∧ _))

/-- The cells of the last row that are not cleared are blank already, and so are the characters
that move to cells above it that are. -/
def CleanScroll (scr : Screen) (t : Terminal) : Prop :=
  ∀ r < scr.rows, ∀ c < scr.cols,
    if Cleared scr (r * scr.cols + c) then r + 1 < scr.rows → t.cells (r + 1) c = 0
    else r + 1 = scr.rows → t.cells r c = 0

instance (scr : Screen) (t : Terminal) : Decidable (CleanScroll scr t) := by
  unfold CleanScroll
  infer_instance

/-- A character scrolls the terminal at most twice, before it is processed and after it, and each
scroll is clean. -/
def CleanScrolls (scr : Screen) (t : Terminal) (c : UInt8) : Prop :=
  (scr.cols ≤ t.x → t.y + 1 = scr.rows → CleanScroll scr t) ∧
    (c = 10 → (t.wrap scr).y + 1 = scr.rows → CleanScroll scr ((t.wrap scr).write 0))

instance (scr : Screen) (t : Terminal) (c : UInt8) : Decidable (CleanScrolls scr t c) :=
  inferInstanceAs (Decidable (_ ∧ _))

/-- The font has a glyph for the character, and it scrolls cleanly. -/
def CleanStep (scr : Screen) (t : Terminal) (c : UInt8) : Prop := c < 128 ∧ CleanScrolls scr t c

instance (scr : Screen) (t : Terminal) (c : UInt8) : Decidable (CleanStep scr t c) :=
  inferInstanceAs (Decidable (_ ∧ _))

/-- On a screen of one row or one column the scroll clears the last row. -/
theorem cleanScroll_of_single {scr : Screen} (h : scr.rows = 1 ∨ scr.cols = 1) (t : Terminal) :
    CleanScroll scr t := by
  intro r hr c hc
  split_ifs with hcleared
  · intro hmore
    unfold Cleared at hcleared
    rcases h with hrows | hcols
    · omega
    · rw [hcols, Nat.mul_one] at hcleared
      omega
  · intro hlast
    refine absurd ?_ hcleared
    unfold Cleared
    rcases h with hrows | hcols
    · have hzero : r = 0 := by omega
      rw [hzero, Nat.zero_mul]
      omega
    · rw [hcols, Nat.mul_one]
      omega

/-! ### The text buffer -/

/-- The cursor and the text are those of the terminal. -/
def Agrees (scr : Screen) (s : Console) (t : Terminal) : Prop :=
  s.cursorX = t.x ∧ s.cursorY = t.y ∧
    ∀ r < scr.rows, ∀ c < scr.cols, s.buffer (cell scr c r) = t.cells r c

section text
variable {scr : Screen} {s : Console} {t : Terminal}

theorem cell_eq_natCast (r c : Nat) : cell scr c r = ((r * scr.cols + c : Nat) : Int) := by
  unfold cell
  push_cast
  rfl

theorem cell_mem_row_iff {r c k : Nat} (hc : c < scr.cols) :
    ((k : Int) * scr.cols ≤ cell scr c r ∧ cell scr c r < (k : Int) * scr.cols + scr.cols) ↔ r = k := by
  constructor
  · rintro ⟨hlow, hhigh⟩
    rcases Nat.lt_trichotomy r k with hlt | heq | hgt
    · have hrow : ((r : Int) + 1) * scr.cols ≤ k * scr.cols :=
        Int.mul_le_mul_of_nonneg_right (by omega) (by omega)
      rw [Int.add_mul, Int.one_mul] at hrow
      unfold cell at hlow
      omega
    · exact heq
    · have hrow : ((k : Int) + 1) * scr.cols ≤ r * scr.cols :=
        Int.mul_le_mul_of_nonneg_right (by omega) (by omega)
      rw [Int.add_mul, Int.one_mul] at hrow
      unfold cell at hhigh
      omega
  · rintro rfl
    unfold cell
    omega

theorem cell_injective {r c r' c' : Nat} (hc : c < scr.cols) (hc' : c' < scr.cols)
    (h : cell scr c r = cell scr c' r') : r = r' ∧ c = c' := by
  have hrow : r = r' := (cell_mem_row_iff hc).mp (h ▸ (cell_mem_row_iff hc').mpr rfl)
  subst hrow
  unfold cell at h
  exact ⟨rfl, by omega⟩

theorem shiftRows_buffer {r c : Nat} (hr : r < scr.rows) (hc : c < scr.cols) :
    (shiftRows scr s).buffer (cell scr c r) =
      if r + 1 < scr.rows then s.buffer (cell scr c (r + 1 : Nat)) else s.buffer (cell scr c r) := by
  have hloop : ∀ r, r < scr.rows → (shiftRows scr s).buffer (cell scr c r) =
      if r < scr.rows - 1 then s.buffer (cell scr c (r + 1 : Nat)) else s.buffer (cell scr c r) := by
    refine loop_invariant (fun k (t : Console) => ∀ r, r < scr.rows → t.buffer (cell scr c r) =
      if r < k then s.buffer (cell scr c (r + 1 : Nat)) else s.buffer (cell scr c r)) ?_ ?_
    · intro r _
      rw [if_neg (Nat.not_lt_zero r)]
    · intro k hk t ht r hr
      change (if (k : Int) * scr.cols ≤ cell scr c r ∧ cell scr c r < (k : Int) * scr.cols + scr.cols then
        t.buffer (((k : Int) + 1) * scr.cols + (cell scr c r - k * scr.cols)) else t.buffer (cell scr c r)) = _
      by_cases hrow : r = k
      · have hsource : ((k : Int) + 1) * scr.cols + (cell scr c r - k * scr.cols) = cell scr c (r + 1 : Nat) := by
          rw [hrow]
          unfold cell
          push_cast
          ring
        rw [if_pos ((cell_mem_row_iff hc).mpr hrow), hsource, ht (r + 1) (by omega), if_neg (by omega),
          if_pos (by omega)]
      · rw [if_neg fun h => hrow ((cell_mem_row_iff hc).mp h), ht r hr]
        by_cases hlt : r < k
        · rw [if_pos hlt, if_pos (by omega)]
        · rw [if_neg hlt, if_neg (by omega)]
  rw [hloop r hr]
  by_cases hlast : r + 1 < scr.rows
  · rw [if_pos hlast, if_pos (by omega)]
  · rw [if_neg hlast, if_neg (by omega)]

theorem efiFbNewline_buffer (hscroll : ¬ s.cursorY + 1 < scr.rows) {r c : Nat} (hr : r < scr.rows)
    (hc : c < scr.cols) : (efiFbNewline scr s).buffer (cell scr c r) =
      if Cleared scr (r * scr.cols + c) then 0
      else if r + 1 < scr.rows then s.buffer (cell scr c (r + 1 : Nat)) else s.buffer (cell scr c r) := by
  have hcleared : ((scr.rows : Int) - 1 ≤ cell scr c r ∧ cell scr c r < (scr.rows : Int) - 1 + scr.cols) ↔
      Cleared scr (r * scr.cols + c) := by
    rw [cell_eq_natCast, Cleared]
    omega
  have hshift := @shiftRows_buffer scr { s with cursorY := s.cursorY + 1 } r c hr hc
  unfold efiFbNewline
  rw [if_neg hscroll]
  change (if (scr.rows : Int) - 1 ≤ cell scr c r ∧ cell scr c r < (scr.rows : Int) - 1 + scr.cols then 0
    else (shiftRows scr { s with cursorY := s.cursorY + 1 }).buffer (cell scr c r)) = _
  rw [hshift]
  exact if_congr hcleared rfl rfl

/-- A new row shows no difference exactly when there is no scroll or the scroll is clean. -/
theorem efiFbNewline_agrees_iff (h : Agrees scr s t) (hy : t.y < scr.rows) :
    Agrees scr (efiFbNewline scr s) (t.nextRow scr) ↔ (t.y + 1 = scr.rows → CleanScroll scr t) := by
  obtain ⟨hcursorX, hcursorY, htext⟩ := h
  obtain ⟨hx', hy'⟩ := @efiFbNewline_cursor scr s
  by_cases hmore : t.y + 1 < scr.rows
  · refine iff_of_true ?_ fun hlast => by omega
    have hstep : s.cursorY + 1 < scr.rows := by omega
    unfold efiFbNewline Terminal.nextRow
    rw [if_pos hstep, if_pos hmore]
    refine ⟨hcursorX, ?_, htext⟩
    change s.cursorY + 1 = ((t.y + 1 : Nat) : Int)
    omega
  have hlast : t.y + 1 = scr.rows := by omega
  have hscroll : ¬ s.cursorY + 1 < scr.rows := by omega
  rw [if_neg hscroll] at hy'
  have hcells : ∀ r c, (t.nextRow scr).cells r c = if r + 1 < scr.rows then t.cells (r + 1) c else 0 := by
    intro r c
    rw [Terminal.nextRow, if_neg hmore]
  have hcursor : (t.nextRow scr).y = t.y := by rw [Terminal.nextRow, if_neg hmore]
  have hcell : ∀ r < scr.rows, ∀ c < scr.cols,
      ((efiFbNewline scr s).buffer (cell scr c r) = (t.nextRow scr).cells r c ↔
        if Cleared scr (r * scr.cols + c) then r + 1 < scr.rows → t.cells (r + 1) c = 0
        else r + 1 = scr.rows → t.cells r c = 0) := by
    intro r hr c hc
    rw [efiFbNewline_buffer hscroll hr hc, hcells]
    split_ifs with hcleared hrow hrow
    · rw [forall_prop_of_true hrow]
      exact eq_comm
    · exact iff_of_true rfl fun h => absurd h hrow
    · rw [htext (r + 1) hrow c hc]
      exact iff_of_true rfl fun h => by omega
    · rw [htext r hr c hc, forall_prop_of_true (show r + 1 = scr.rows by omega)]
  rw [forall_prop_of_true hlast]
  constructor
  · rintro ⟨-, -, hagree⟩ r hr c hc
    exact (hcell r hr c hc).mp (hagree r hr c hc)
  · intro hclean
    refine ⟨?_, ?_, fun r hr c hc => (hcell r hr c hc).mpr (hclean r hr c hc)⟩
    · rw [hx', hcursorX, Terminal.nextRow_x]
    · rw [hy', hcursorY, hcursor]

theorem efiFbWriteBuff_text (h : Agrees scr s t) (hx : t.x < scr.cols) (c : UInt8) :
    ∀ r < scr.rows, ∀ k < scr.cols,
      (efiFbWriteBuff scr s s.cursorX s.cursorY c).buffer (cell scr k r) = (t.write c).cells r k := by
  obtain ⟨hcursorX, hcursorY, htext⟩ := h
  intro r hr k hk
  change Function.update s.buffer (cell scr s.cursorX s.cursorY) c (cell scr k r) =
    Function.update t.cells t.y (Function.update (t.cells t.y) t.x c) r k
  rw [hcursorX, hcursorY]
  by_cases hsame : r = t.y ∧ k = t.x
  · rw [hsame.1, hsame.2, Function.update_self, Function.update_self, Function.update_self]
  · have hne : cell scr k r ≠ cell scr t.x t.y := fun heq => hsame (cell_injective hk hx heq)
    rw [Function.update_of_ne hne, htext r hr k hk]
    by_cases hrow : r = t.y
    · have hcol : k ≠ t.x := fun heq => hsame ⟨hrow, heq⟩
      rw [hrow, Function.update_self, Function.update_of_ne hcol]
    · rw [Function.update_of_ne hrow]

theorem efiFbCursorSanity_agrees_iff (h : Agrees scr s t) (hy : t.y < scr.rows) :
    Agrees scr (efiFbCursorSanity scr s) (t.wrap scr) ↔
      (scr.cols ≤ t.x → t.y + 1 = scr.rows → CleanScroll scr t) := by
  have hx := h.1
  unfold efiFbCursorSanity Terminal.wrap
  by_cases hpast : scr.cols ≤ t.x
  · rw [if_pos (by omega), if_pos hpast, forall_prop_of_true hpast]
    have hzero : Agrees scr { s with cursorX := 0 } { t with x := 0 } := ⟨rfl, h.2.1, h.2.2⟩
    exact efiFbNewline_agrees_iff hzero hy
  · rw [if_neg (by omega), if_neg hpast]
    exact iff_of_true h fun hle => absurd hle hpast

theorem putSanitized_agrees_iff (h : Agrees scr s t) (hx : t.x < scr.cols) (hy : t.y < scr.rows) (c : UInt8) :
    Agrees scr (putSanitized scr s c) (t.process scr c) ↔
      (c = 10 → t.y + 1 = scr.rows → CleanScroll scr (t.write 0)) := by
  unfold putSanitized Terminal.process
  split_ifs with hnewline hreturn
  · rw [forall_prop_of_true hnewline]
    have hwritten : Agrees scr { efiFbWriteBuff scr s s.cursorX s.cursorY 0 with cursorX := 0 }
        { t.write 0 with x := 0 } := ⟨rfl, h.2.1, efiFbWriteBuff_text h hx 0⟩
    exact efiFbNewline_agrees_iff hwritten hy
  · exact iff_of_true ⟨rfl, h.2.1, h.2.2⟩ fun hc => absurd hc hnewline
  · refine iff_of_true ⟨?_, h.2.1, efiFbWriteBuff_text h hx c⟩ fun hc => absurd hc hnewline
    change s.cursorX + 1 = ((t.x + 1 : Nat) : Int)
    have := h.1
    omega

end text

/-! ### Glyphs -/

/-- Nothing behind the font has been read. -/
def InFont (s : Console) : Prop := ∀ o ∈ s.fontReads, o < consoleFontLen

section glyphs
variable {scr : Screen} {s : Console} {t : Terminal}

theorem glyphReads_inside_iff {c : UInt8} : (∀ o ∈ glyphReads c, o < consoleFontLen) ↔ c < 128 := by
  rw [show c < 128 ↔ c.toNat < 128 from Iff.rfl]
  have hc := c.toNat_lt
  simp only [glyphReads, List.forall_mem_map, List.mem_range, glyphByte, charValue, consoleFontLen,
    fontHeaderSize, fontHeight, fontWidth]
  constructor
  · intro h
    have hfirst := h 0 (by omega)
    split_ifs at hfirst with hlow
    · exact hlow
    · omega
  · intro hlow i hi
    rw [if_pos hlow]
    omega

theorem efiFbWriteBuff_inFont_iff (h : InFont s) (x y : Int) (c : UInt8) :
    InFont (efiFbWriteBuff scr s x y c) ↔ c < 128 := by
  rw [← glyphReads_inside_iff]
  unfold InFont at *
  simp only [efiFbWriteBuff, List.mem_append]
  exact ⟨fun hall o ho => hall o (.inr ho), fun hall o ho => ho.elim (h o) (hall o)⟩

theorem shiftRows_fontReads (s : Console) : (shiftRows scr s).fontReads = s.fontReads :=
  loop_invariant (fun _ (t : Console) => t.fontReads = s.fontReads) rfl fun _ _ _ ht => ht

theorem efiFbNewline_inFont (h : InFont s) (hagrees : Agrees scr (efiFbNewline scr s) t) (hshown : t.Shown) :
    InFont (efiFbNewline scr s) := by
  obtain ⟨-, -, htext⟩ := hagrees
  unfold efiFbNewline at htext ⊢
  split_ifs at htext ⊢ with hmore
  · exact h
  · intro o ho
    rcases List.mem_append.mp ho with hold | hnew
    · change o ∈ (shiftRows scr { s with cursorY := s.cursorY + 1 }).fontReads at hold
      rw [shiftRows_fontReads] at hold
      exact h o hold
    · obtain ⟨⟨x, y⟩, hmem, hread⟩ := List.mem_flatMap.mp hnew
      obtain ⟨hx, hy⟩ := allCells_inside hmem
      obtain ⟨c, rfl⟩ := Int.eq_ofNat_of_zero_le hx.1
      obtain ⟨r, rfl⟩ := Int.eq_ofNat_of_zero_le hy.1
      refine glyphReads_inside_iff.mpr ?_ o hread
      exact (htext r (by omega) c (by omega)).symm ▸ hshown r c

theorem efiFbCursorSanity_inFont (h : InFont s) (hagrees : Agrees scr (efiFbCursorSanity scr s) t)
    (hshown : t.Shown) : InFont (efiFbCursorSanity scr s) := by
  unfold efiFbCursorSanity at hagrees ⊢
  split_ifs at hagrees ⊢
  · exact efiFbNewline_inFont (s := { s with cursorX := 0 }) h hagrees hshown
  · exact h

/-- A character that is processed as the terminal does it reads its glyph, if it has one. -/
theorem putSanitized_inFont_iff (h : InFont s) {c : UInt8} (hagrees : Agrees scr (putSanitized scr s c) t)
    (hshown : c < 128 → t.Shown) : InFont (putSanitized scr s c) ↔ c < 128 := by
  unfold putSanitized at hagrees ⊢
  split_ifs at hagrees ⊢ with hnewline hreturn
  · have hc : c < 128 := by
      rw [hnewline]
      decide
    refine iff_of_true (efiFbNewline_inFont ?_ hagrees (hshown hc)) hc
    exact (@efiFbWriteBuff_inFont_iff scr s h s.cursorX s.cursorY 0).mpr (by decide)
  · refine iff_of_true h ?_
    rw [hreturn]
    decide
  · exact @efiFbWriteBuff_inFont_iff scr s h s.cursorX s.cursorY c

end glyphs

/-! ### Runs -/

/-- The console and the terminal take the same character. -/
def pairStep (scr : Screen) (both : Console × Terminal) (c : UInt8) : Option (Console × Terminal) :=
  some (efiFbConsolePutchar scr both.1 c, both.2.putchar scr c)

/-- The two agree when the cursor is back on the screen and when the character has been processed,
and all glyphs on the way have been read from the font. -/
def StaysAgreed (scr : Screen) (both : Console × Terminal) (_ : UInt8) (after : Console × Terminal) : Prop :=
  Agrees scr (efiFbCursorSanity scr both.1) (both.2.wrap scr) ∧ Agrees scr after.1 after.2 ∧ InFont after.1

structure Follows (scr : Screen) (both : Console × Terminal) : Prop where
  agrees : Agrees scr both.1 both.2
  placed : both.2.Placed scr
  shown : both.2.Shown
  inFont : InFont both.1

theorem pairStep_agrees_iff {scr : Screen} (hcols : 1 ≤ scr.cols) {both : Console × Terminal}
    (h : Follows scr both) (c : UInt8) :
    ∃ after, pairStep scr both c = some after ∧
      (StaysAgreed scr both c after ↔ CleanStep scr both.2 c) ∧ (CleanStep scr both.2 c → Follows scr after) := by
  obtain ⟨hagrees, hplaced, hshown, hfont⟩ := h
  obtain ⟨hwrapped, hcell⟩ := Terminal.wrap_placed hcols hplaced
  have hsanity := efiFbCursorSanity_agrees_iff hagrees hplaced.2
  have hput : Agrees scr (efiFbCursorSanity scr both.1) (both.2.wrap scr) →
      Agrees scr (efiFbConsolePutchar scr both.1 c) (both.2.putchar scr c) →
      (InFont (efiFbConsolePutchar scr both.1 c) ↔ c < 128) := fun hsane hafter =>
    putSanitized_inFont_iff (efiFbCursorSanity_inFont hfont hsane (Terminal.wrap_shown hshown)) hafter
      (Terminal.putchar_shown hshown)
  have hiff : StaysAgreed scr both c (efiFbConsolePutchar scr both.1 c, both.2.putchar scr c) ↔
      CleanStep scr both.2 c := by
    constructor
    · rintro ⟨hsane, hafter, hreads⟩
      exact ⟨(hput hsane hafter).mp hreads, hsanity.mp hsane,
        (putSanitized_agrees_iff hsane hcell hwrapped.2 c).mp hafter⟩
    · rintro ⟨hglyph, hbefore, hafter⟩
      have hsane := hsanity.mpr hbefore
      have hagrees' := (putSanitized_agrees_iff hsane hcell hwrapped.2 c).mpr hafter
      exact ⟨hsane, hagrees', (hput hsane hagrees').mpr hglyph⟩
  refine ⟨_, rfl, hiff, fun hclean => ?_⟩
  obtain ⟨-, hagrees', hfont'⟩ := hiff.mpr hclean
  exact ⟨hagrees', Terminal.putchar_placed hcols hplaced c, Terminal.putchar_shown hshown hclean.1, hfont'⟩

/-- The scrolls of a string are a matter of the terminal alone. -/
theorem guarded_pair_iff (scr : Screen) (both : Console × Terminal) (str : List UInt8) :
    Guarded (pairStep scr) (fun both c => CleanStep scr both.2 c) both str ↔
      Guarded (fun t c => some (t.putchar scr c)) (CleanStep scr) both.2 str := by
  induction str generalizing both with
  | nil => exact Iff.rfl
  | cons c str ih => exact and_congr_right fun _ => ih _

theorem start_follows {scr : Screen} (hrows : 1 ≤ scr.rows) {buffer : Int → UInt8}
    (hclear : ∀ o : Int, 0 ≤ o → o < scr.rows * scr.cols → buffer o = 0) :
    Follows scr (Console.start buffer, Terminal.blank) := by
  refine ⟨⟨rfl, rfl, fun r hr c hc => ?_⟩, ⟨Nat.zero_le _, hrows⟩, Terminal.blank_shown, nofun⟩
  obtain ⟨hlow, hhigh⟩ := @cell_inside scr c r (by omega) (by omega)
  exact hclear _ hlow hhigh

/-- From a cleared buffer on the console follows the terminal through a string exactly when every
scroll on the way is clean and every character has a glyph. `rows` and `cols` have no bound here;
the source has them as `int`, and `kmalloc` serves at most 32768 cells. -/
theorem console_follows_terminal_iff (scr : Screen) (hrows : 1 ≤ scr.rows) (hcols : 1 ≤ scr.cols)
    (buffer : Int → UInt8) (hclear : ∀ o : Int, 0 ≤ o → o < scr.rows * scr.cols → buffer o = 0) (str : List UInt8) :
    Along (pairStep scr) (StaysAgreed scr) (Console.start buffer, Terminal.blank) str ↔
      Guarded (fun t c => some (t.putchar scr c)) (CleanStep scr) Terminal.blank str := by
  have hfair : Guarded (pairStep scr) (fun _ _ => True) (Console.start buffer, Terminal.blank) str :=
    guarded_of_forall (fun _ _ _ => trivial) _
  have halong := along_iff (Follows scr) (fun both c hboth _ => pairStep_agrees_iff hcols hboth c)
    (start_follows hrows hclear) hfair
  exact halong.trans (guarded_pair_iff scr _ str)

/-- Agreement all along a string is agreement at its end. -/
theorem agrees_feed_of_along {scr : Screen} {s : Console} {t : Terminal} {str : List UInt8} (h : Agrees scr s t)
    (halong : Along (pairStep scr) (StaysAgreed scr) (s, t) str) : Agrees scr (feed scr s str) (t.feed scr str) := by
  induction str generalizing s t with
  | nil => exact h
  | cons c str ih =>
      obtain ⟨after, hafter, hstays, hrest⟩ := halong
      obtain rfl := Option.some.inj hafter
      exact ih hstays.2.1 hrest

/-- With one row or one column the console follows the terminal through every string of characters
that have glyphs. -/
theorem follows_feed_of_single {scr : Screen} (hcols : 1 ≤ scr.cols) (hsingle : scr.rows = 1 ∨ scr.cols = 1)
    {s : Console} {t : Terminal} (h : Follows scr (s, t)) {str : List UInt8} (hstr : ∀ c ∈ str, c < 128) :
    Follows scr (feed scr s str, t.feed scr str) := by
  induction str generalizing s t with
  | nil => exact h
  | cons c str ih =>
      obtain ⟨after, hafter, -, hfollows⟩ := pairStep_agrees_iff hcols h c
      obtain rfl := Option.some.inj hafter
      have hclean : CleanStep scr t c :=
        ⟨hstr c List.mem_cons_self, fun _ _ => cleanScroll_of_single hsingle _,
          fun _ _ => cleanScroll_of_single hsingle _⟩
      exact ih (hfollows hclean) fun d hd => hstr d (List.mem_cons_of_mem c hd)

/-- Two rows of two characters. -/
def twoByTwo : Screen := ⟨2, 2, 64, fun _ => 0⟩

/-- The two rows fill without a scroll. -/
theorem console_follows_terminal_two_rows :
    Along (pairStep twoByTwo) (StaysAgreed twoByTwo) (Console.start fun _ => 0, Terminal.blank) [97, 10, 98, 99] :=
  (console_follows_terminal_iff twoByTwo (by decide) (by decide) (fun _ => 0) (fun _ _ _ => rfl) [97, 10, 98, 99]).mpr
    (by decide +kernel)

/-- The next character scrolls the screen, and the `c` that the `memset` misses stays in the last
row. -/
theorem console_scroll_leaves_text :
    (feed twoByTwo (Console.start fun _ => 0) [97, 10, 98, 99, 100]).buffer 3 = 99 ∧
      (Terminal.blank.feed twoByTwo [97, 10, 98, 99, 100]).cells 1 1 = 0 ∧
      ¬ Agrees twoByTwo (feed twoByTwo (Console.start fun _ => 0) [97, 10, 98, 99, 100])
        (Terminal.blank.feed twoByTwo [97, 10, 98, 99, 100]) := by
  have hcode : (feed twoByTwo (Console.start fun _ => 0) [97, 10, 98, 99, 100]).buffer 3 = 99 := by decide +kernel
  have hblank : (Terminal.blank.feed twoByTwo [97, 10, 98, 99, 100]).cells 1 1 = 0 := by decide +kernel
  refine ⟨hcode, hblank, ?_⟩
  rintro ⟨-, -, htext⟩
  have hcell := htext 1 (by decide) 1 (by decide)
  rw [show cell twoByTwo (1 : Nat) (1 : Nat) = 3 by decide, hcode, hblank] at hcell
  exact absurd hcell (by decide)

end Lucix.FbConsole
