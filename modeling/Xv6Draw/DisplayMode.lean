import Xv6Draw.Lib.Transition
import Xv6Draw.Vga

/-!
# Switching the display mode

`displayioctl` saves the text screen when graphics mode is selected and brings it
back when text mode is: characters and cursor in `display.c`, the palette in
`vga.c`. The characters and the cursor are saved once, under a flag. The palette is
saved at every selection of graphics mode and restored at every selection of text
mode, so it survives only switches that come in pairs.
-/

namespace Xv6Draw.Vga

open Function List Transition

/-- The adapter and the variables of `display.c` and `vga.c`. -/
structure State where
  adapter : Adapter
  cga256 : ℕ → ℕ
  savedTextMem : ℕ → Byte
  textSaved : Bool
  savedCursorPos : ℕ

/-- `TEXT_MEM_SIZE`. -/
def textMemSize : ℕ := 80 * 25 * 2

/-- The text memory, 0xB8000. -/
def textmem : ℕ := 0xB8000

/-- `get_cursor_pos`. -/
def getCursorPos (a : Adapter) : ℕ × Adapter :=
  let (high, a) := inb (outb a 0x3D4 14) 0x3D5
  let (low, a) := inb (outb a 0x3D4 15) 0x3D5
  (high <<< 8 ||| low, a)

/-- `set_cursor_pos`. -/
def setCursorPos (a : Adapter) (pos : ℕ) : Adapter :=
  let a := outb (outb a 0x3D4 14) 0x3D5 (pos >>> 8)
  outb (outb a 0x3D4 15) 0x3D5 pos

/-- `memmove` from the text memory. -/
def readText (a : Adapter) (old : ℕ → Byte) : ℕ → Byte :=
  fun k => if k < textMemSize then load a (textmem + k) else old k

/-- `memmove` to the text memory. -/
def writeText (a : Adapter) (text : ℕ → Byte) : Adapter :=
  (range textMemSize).foldl (fun a k => store a (textmem + k) (text k)) a

/-- `displayioctl`, with the font of `vga.c` as a parameter. -/
def displayioctl (font : ℕ → Byte) (s : State) (param value : BitVec 32) : State × ℤ :=
  if param = 1 then
    if value = 0x13 then
      let s := if s.textSaved then s
        else
          let (pos, a) := getCursorPos s.adapter
          { s with adapter := a, savedTextMem := readText s.adapter s.savedTextMem,
                   savedCursorPos := pos, textSaved := true }
      let (a, cga256) := vgaMode13 s.adapter s.cga256
      ({ s with adapter := a, cga256 := cga256 }, 0)
    else if value = 0x3 then
      let s := { s with adapter := vgaMode3 font s.adapter s.cga256 }
      if s.textSaved then
        ({ s with adapter := setCursorPos (writeText s.adapter s.savedTextMem) s.savedCursorPos,
                  textSaved := false }, 0)
      else (s, 0)
    else (s, -1)
  else if param = 2 then
    let part := fun k => (value.extractLsb' k 8).toNat
    ({ s with adapter := vgaSetPalette s.adapter (part 24) (part 16) (part 8) (part 0) }, 0)
  else (s, -1)

/-- What happens to the display: an `ioctl`, a store to display memory (by a write to
the device or by the console), and the console moving the cursor. -/
inductive Event where
  | ioctl (param value : BitVec 32)
  | store (addr : ℕ) (value : Byte)
  | cursor (pos : ℕ)
  deriving DecidableEq

/-- The selection of graphics mode. -/
def mode13 : Event := .ioctl 1 0x13

/-- The selection of text mode. -/
def mode3 : Event := .ioctl 1 0x3

/-- One event. -/
def step (font : ℕ → Byte) (s : State) : Event → State
  | .ioctl param value => (displayioctl font s param value).1
  | .store addr value => { s with adapter := store s.adapter addr value }
  | .cursor pos => { s with adapter := setCursorPos s.adapter pos }

/-- The adapter is in a graphics mode: bit 0 of graphics register 6. -/
def State.graphics (s : State) : Bool := (s.adapter.gfx 6).getLsbD 0

/-- What a user sees of text mode. -/
structure Screen where
  text : List Byte
  cursor : ℕ
  palette : List Color
  deriving DecidableEq

/-- The screen of an adapter. -/
def screen (a : Adapter) : Screen where
  text := (range textMemSize).map fun k => load a (textmem + k)
  cursor := (getCursorPos a).1
  palette := (range 256).map a.palette

/-- A state together with the screen at the moment when text mode was last left. -/
structure Watched where
  state : State
  /-- The screen then. -/
  left : Screen

/-- One event, watched. -/
def watch (font : ℕ → Byte) (w : Watched) (e : Event) : Option Watched :=
  some ⟨step font w.state e,
    if e = mode13 ∧ w.state.graphics = false then screen w.state.adapter else w.left⟩

/-- The adapter as text mode sets it up: odd and even addresses apart on planes 0 and
1, with the window at 0xB8000. -/
structure TextSetup (a : Adapter) : Prop where
  mask : a.seq 2 = 3
  layout : a.seq 4 = 2
  select : a.gfx 4 = 0
  map : a.gfx 6 = 0x0E

/-- A state in text mode in which nothing is saved, as after boot. -/
def Booted (s : State) : Prop := TextSetup s.adapter ∧ s.textSaved = false

/-- The switches come in pairs: graphics mode is selected in text mode only, and text
mode in graphics mode, or while the saved palette is the one that is in use. -/
def Paired (w : Watched) (e : Event) : Prop :=
  (e = mode13 → w.state.graphics = false) ∧
  (e = mode3 → w.state.graphics = true ∨
    ∀ i < 256, colorOf (w.state.cga256 i) = w.state.adapter.palette i)

/-! ### Text memory and the cursor -/

variable {a b : Adapter} {k : ℕ} {s : State} {w : Watched}

/-- Text mode depends on the sequencer and the graphics registers. -/
theorem TextSetup.congr (h : TextSetup a) (hseq : b.seq = a.seq)
    (hgfx : b.gfx = a.gfx) : TextSetup b := by
  constructor
  · rw [hseq, h.mask]
  · rw [hseq, h.layout]
  · rw [hgfx, h.select]
  · rw [hgfx, h.map]

/-- The text memory starts the window of text mode. -/
theorem decode_textmem (h : TextSetup a) (hk : k < textMemSize) :
    decode a (textmem + k) = some k := by
  unfold textMemSize at hk
  have hmap : (a.gfx 6).toNat / 4 % 4 = 3 := by
    rw [h.map]
    rfl
  have hrange : 0xB8000 ≤ textmem + k ∧ textmem + k < 0xC0000 := by
    unfold textmem
    omega
  have hoff : textmem + k - 0xB8000 = k := by
    unfold textmem
    omega
  simp only [decode, hmap, if_pos hrange, hoff]

theorem load_textmem (h : TextSetup a) (hk : k < textMemSize) :
    load a (textmem + k) = a.plane (k % 2) (k - k % 2) := by
  rw [load, decode_textmem h hk]
  simp [h.layout, h.select]

/-- A store to the text memory in text mode. -/
theorem store_textmem (h : TextSetup a) (hk : k < textMemSize) (v : Byte) :
    (store a (textmem + k) v).plane = fun p => if p = k % 2 then
      update (a.plane p) (k - k % 2) v else a.plane p := by
  have hplane : ∀ p, storePlane a k p = if p = k % 2 then some (k - k % 2) else none := by
    intro p
    unfold storePlane
    rw [h.mask, h.layout]
    have hlow : k % 2 = 0 ∨ k % 2 = 1 := by omega
    by_cases hp : p = k % 2
    · subst p
      rcases hlow with hzero | hone
      · simp [hzero]
      · simp [hone]
    · simp [hp]
  rw [store, decode_textmem h hk]
  funext p
  simp only [hplane]
  split_ifs <;> rfl

/-- Writing the text memory changes display memory only, and every byte of the text
then is the given one. -/
theorem writeText_eq (h : TextSetup a) (text : ℕ → Byte) :
    ∃ plane, writeText a text = { a with plane := plane } ∧
      ∀ k < textMemSize, plane (k % 2) (k - k % 2) = text k := by
  have hloop : ∀ n ≤ textMemSize, ∃ plane,
      (range n).foldl (fun a k => store a (textmem + k) (text k)) a = { a with plane := plane } ∧
      ∀ k < n, plane (k % 2) (k - k % 2) = text k := by
    intro n hn
    induction n with
    | zero => exact ⟨a.plane, rfl, by simp⟩
    | succ n ih =>
      obtain ⟨plane, hprev, htext⟩ := ih (by omega)
      have hsetup : TextSetup { a with plane := plane } := h.congr rfl rfl
      rw [range_succ, foldl_append, hprev, foldl_cons, foldl_nil]
      refine ⟨_, store_eq _ _ _, ?_⟩
      intro k hk
      rw [store_textmem hsetup (by omega)]
      by_cases hkn : k = n
      · subst k
        simp
      · have hplace : k % 2 = n % 2 → k - k % 2 ≠ n - n % 2 := by omega
        rw [← htext k (by omega)]
        simp only
        split_ifs with hp
        · exact update_of_ne (hplace hp) _ _
        · rfl
  exact hloop textMemSize le_rfl

theorem getCursorPos_eq (a : Adapter) :
    getCursorPos a = ((a.crtc 14).toNat <<< 8 ||| (a.crtc 15).toNat, { a with crtcIndex := 15 }) := rfl

theorem setCursorPos_eq (a : Adapter) (pos : ℕ) :
    setCursorPos a pos = { a with
      crtcIndex := 15,
      crtc := update (update a.crtc 14 (BitVec.ofNat 8 (pos >>> 8))) 15
        (BitVec.ofNat 8 pos) } := rfl

/-- A position that was read is set exactly. -/
theorem cursor_roundtrip (b : Adapter) : BitVec.ofNat 8 ((getCursorPos b).1 >>> 8) = b.crtc 14 ∧
      BitVec.ofNat 8 (getCursorPos b).1 = b.crtc 15 := by
  have hlow := (b.crtc 15).isLt
  have hpos : (getCursorPos b).1 = (b.crtc 14).toNat * 256 + (b.crtc 15).toNat := by
    rw [getCursorPos_eq]
    simp only
    rw [← Nat.shiftLeft_add_eq_or_of_lt hlow, Nat.shiftLeft_eq]
  rw [hpos]
  constructor
  · apply BitVec.eq_of_toNat_eq
    rw [BitVec.toNat_ofNat, Nat.shiftRight_eq_div_pow]
    omega
  · apply BitVec.eq_of_toNat_eq
    rw [BitVec.toNat_ofNat]
    omega

/-- Two adapters in text mode with the same characters, cursor and palette. -/
theorem screen_eq (ha : TextSetup a) (hb : TextSetup b)
    (htext : ∀ k < textMemSize, a.plane (k % 2) (k - k % 2) = b.plane (k % 2) (k - k % 2))
    (hhigh : a.crtc 14 = b.crtc 14) (hlow : a.crtc 15 = b.crtc 15)
    (hpalette : ∀ i < 256, a.palette i = b.palette i) : screen a = screen b := by
  simp only [screen, getCursorPos_eq, hhigh, hlow, Screen.mk.injEq, true_and]
  constructor
  · apply map_congr_left
    intro k hk
    have hk' := mem_range.mp hk
    rw [load_textmem ha hk', load_textmem hb hk', htext k hk']
  · apply map_congr_left
    intro i hi
    exact hpalette i (mem_range.mp hi)

/-! ### The two modes -/

/-- What `vgaMode13` does: it saves the palette, keeps display memory and the cursor,
and leaves the adapter in graphics mode. -/
theorem vgaMode13_spec (a : Adapter) (cga256 : ℕ → ℕ) :
    (∀ i < 256, (vgaMode13 a cga256).2 i = (a.palette i).encode) ∧
    (∀ i < 256, (vgaMode13 a cga256).1.palette i = colorOf (vga256.getD i 0)) ∧
    (vgaMode13 a cga256).1.gfx 6 = 5 := by
  have hsave := cgaSavePalette_eq a cga256
  have hsets := sets_mode13Registers { a with dacIndex := 0, dacPart := 0 }
  obtain ⟨index, part, hdefault⟩ :=
    setdefaultVGApalette_eq (mode13Registers { a with dacIndex := 0, dacPart := 0 })
  have heq : vgaMode13 a cga256 =
      (setdefaultVGApalette (mode13Registers { a with dacIndex := 0, dacPart := 0 }),
        fun i => if i < 256 then (a.palette i).encode else cga256 i) := by
    rw [vgaMode13, hsave]
  rw [heq, hdefault]
  refine ⟨?_, ?_, ?_⟩
  · intro i hi
    simp only [if_pos hi]
  · intro i hi
    simp only [if_pos hi]
  · have hmode : ∀ regs, setAll mode13Gfx regs 6 = 5 := fun _ => rfl
    simp only [hsets.gfx, hmode]

/-- The stages of `vgaMode3` put together: the registers, the font, the registers
behind it and the palette. -/
theorem text_of_stages {c d e : Adapter} {cga256 : ℕ → ℕ} {plane : ℕ → ℕ → Byte}
    {index part : ℕ} (hb : Sets (mode3Seq ++ fontSeq) mode3Crtc (mode3Gfx ++ fontGfx) a b)
    (hc : c = { b with plane := plane }) (hplane : ∀ p, p ≠ 2 → plane p = b.plane p)
    (hd : Sets textSeq [] textGfx c d)
    (he : e = { d with
      palette := fun i => if i < 256 then colorOf (cga256 i) else d.palette i, dacIndex := index,
      dacPart := part }) :
    TextSetup e ∧ (∀ p, p ≠ 2 → e.plane p = a.plane p) ∧ e.crtc 14 = a.crtc 14 ∧
      e.crtc 15 = a.crtc 15 ∧ ∀ i < 256, e.palette i = colorOf (cga256 i) := by
  subst hc he
  have hseq : ∀ regs, setAll textSeq regs 2 = 3 ∧ setAll textSeq regs 4 = 2 := fun _ => ⟨rfl, rfl⟩
  have hgfx : ∀ regs, setAll textGfx regs 4 = 0 ∧ setAll textGfx regs 6 = 0x0E := fun _ => ⟨rfl, rfl⟩
  have hcursor : ∀ regs, setAll mode3Crtc regs 14 = regs 14 ∧ setAll mode3Crtc regs 15 = regs 15 :=
    fun _ => ⟨rfl, rfl⟩
  have hcrtc : d.crtc = setAll mode3Crtc a.crtc := by
    rw [hd.crtc, setAll, foldl_nil, hb.crtc]
  refine ⟨⟨?_, ?_, ?_, ?_⟩, ?_, ?_, ?_, ?_⟩
  · simp only [hd.seq, hseq]
  · simp only [hd.seq, hseq]
  · simp only [hd.gfx, hgfx]
  · simp only [hd.gfx, hgfx]
  · intro p hp
    simp only [hd.plane, hplane p hp, hb.plane]
  · simp only [hcrtc, hcursor]
  · simp only [hcrtc, hcursor]
  · intro i hi
    simp only [if_pos hi]

variable (font : ℕ → Byte)

/-- What `vgaMode3` does: it sets the palette to the saved one, keeps the text and the
cursor, and leaves the adapter in text mode. -/
theorem vgaMode3_spec (a : Adapter) (cga256 : ℕ → ℕ) : TextSetup (vgaMode3 font a cga256) ∧
    (∀ p, p ≠ 2 → (vgaMode3 font a cga256).plane p = a.plane p) ∧
    (vgaMode3 font a cga256).crtc 14 = a.crtc 14 ∧ (vgaMode3 font a cga256).crtc 15 = a.crtc 15 ∧
    ∀ i < 256, (vgaMode3 font a cga256).palette i = colorOf (cga256 i) := by
  have hregs := sets_mode3Registers a
  have hplane2 : ∀ regs, setAll (mode3Seq ++ fontSeq) regs 2 = 4 := fun _ => rfl
  have hmask : (mode3Registers a).seq 2 = 4 := by rw [hregs.seq, hplane2]
  obtain ⟨plane, hfont, hplane⟩ := copyFont_eq font hmask
  have htext := sets_textRegisters (copyFont font (mode3Registers a))
  obtain ⟨index, part, hrestore⟩ :=
    cgaRestorePalette_eq (textRegisters (copyFont font (mode3Registers a))) cga256
  exact text_of_stages hregs hfont hplane htext hrestore

/-! ### Runs -/

/-- What watching keeps. In text mode nothing is saved. In graphics mode the screen
that was left is saved: its characters, its cursor and its palette. -/
structure Kept (w : Watched) : Prop where
  text : w.state.graphics = false → Booted w.state
  graphics : w.state.graphics = true → w.state.textSaved = true ∧ ∃ b, TextSetup b ∧
    w.left = screen b ∧ (∀ k < textMemSize, w.state.savedTextMem k = b.plane (k % 2) (k - k % 2)) ∧
    w.state.savedCursorPos = (getCursorPos b).1 ∧
    ∀ i < 256, colorOf (w.state.cga256 i) = b.palette i

/-- The selection of graphics mode in text mode. -/
theorem displayioctl_mode13 (h : s.textSaved = false) : displayioctl font s 1 0x13 =
      ({ s with adapter := (vgaMode13 { s.adapter with crtcIndex := 15 } s.cga256).1,
                cga256 := (vgaMode13 { s.adapter with crtcIndex := 15 } s.cga256).2,
                savedTextMem := readText s.adapter s.savedTextMem,
                savedCursorPos := (getCursorPos s.adapter).1, textSaved := true }, 0) := by
  simp [displayioctl, h, getCursorPos_eq]

theorem displayioctl_mode13_saved (h : s.textSaved = true) : displayioctl font s 1 0x13 =
      ({ s with adapter := (vgaMode13 s.adapter s.cga256).1,
                cga256 := (vgaMode13 s.adapter s.cga256).2 }, 0) := by
  simp [displayioctl, h]

/-- The selection of text mode in graphics mode. -/
theorem displayioctl_mode3 (h : s.textSaved = true) : displayioctl font s 1 0x3 =
      ({ s with adapter := setCursorPos (writeText (vgaMode3 font s.adapter s.cga256) s.savedTextMem)
                  s.savedCursorPos,
                textSaved := false }, 0) := by
  simp [displayioctl, h]

theorem displayioctl_mode3_text (h : s.textSaved = false) : displayioctl font s 1 0x3 =
      ({ s with adapter := vgaMode3 font s.adapter s.cga256 }, 0) := by
  simp [displayioctl, h]

/-- An adapter in text mode with the palette of a screen shows that screen once its
characters and its cursor are written. -/
theorem screen_writeText (ha : TextSetup a) (hb : TextSetup b) {text : ℕ → Byte}
    (htext : ∀ k < textMemSize, text k = b.plane (k % 2) (k - k % 2))
    (hpalette : ∀ i < 256, a.palette i = b.palette i) :
    screen (setCursorPos (writeText a text) (getCursorPos b).1) = screen b ∧
      TextSetup (setCursorPos (writeText a text) (getCursorPos b).1) := by
  obtain ⟨plane, hwrite, hplane⟩ := writeText_eq ha text
  obtain ⟨hhigh, hlow⟩ := cursor_roundtrip b
  have hsetup : TextSetup (setCursorPos (writeText a text) (getCursorPos b).1) := by
    rw [hwrite, setCursorPos_eq]
    exact ha.congr rfl rfl
  refine ⟨screen_eq hsetup hb ?_ ?_ ?_ ?_, hsetup⟩
  · intro k hk
    rw [hwrite, setCursorPos_eq, ← htext k hk]
    exact hplane k hk
  · rw [setCursorPos_eq]
    simp [hhigh]
  · rw [setCursorPos_eq]
    simp [hlow]
  · intro i hi
    rw [hwrite, setCursorPos_eq]
    exact hpalette i hi

/-- Text mode brings back the screen that was saved. -/
theorem screen_mode3 (hkept : Kept w) (hgraphics : w.state.graphics = true) :
    screen (step font w.state mode3).adapter = w.left ∧
      Booted (step font w.state mode3) := by
  obtain ⟨hsaved, b, hb, hleft, htext, hcursor, hpalette⟩ := hkept.graphics hgraphics
  obtain ⟨hsetup, -, -, -, hrestored⟩ := vgaMode3_spec font w.state.adapter w.state.cga256
  obtain ⟨hscreen, htextmode⟩ := screen_writeText hsetup hb htext
    fun i hi => (hrestored i hi).trans (hpalette i hi)
  rw [mode3, step, displayioctl_mode3 font hsaved, hcursor, hleft]
  exact ⟨hscreen, htextmode, rfl⟩

/-- A new adapter in text mode with the old characters and cursor and a given palette. -/
theorem screen_of_palette {s' : State} {palette : ℕ → Color} (hboot : Booted s)
    (hstate : s' = { s with adapter := a }) (ha : TextSetup a)
    (hplane : ∀ p, p ≠ 2 → a.plane p = s.adapter.plane p)
    (hhigh : a.crtc 14 = s.adapter.crtc 14) (hlow : a.crtc 15 = s.adapter.crtc 15)
    (hpalette : ∀ i < 256, a.palette i = palette i) :
    Booted s' ∧
    ((∀ i < 256, palette i = s.adapter.palette i) → screen s'.adapter = screen s.adapter) := by
  subst hstate
  refine ⟨⟨ha, hboot.2⟩, fun hsame => screen_eq ha hboot.1 ?_ hhigh hlow ?_⟩
  · intro k _
    rw [hplane (k % 2) (by omega)]
  · intro i hi
    rw [hpalette i hi, hsame i hi]

/-- In text mode, text mode stays and nothing is saved. Nothing changes while the saved
palette is in use. -/
theorem screen_mode3_text (hboot : Booted s) : Booted (step font s mode3) ∧
    ((∀ i < 256, colorOf (s.cga256 i) = s.adapter.palette i) →
      screen (step font s mode3).adapter = screen s.adapter) := by
  obtain ⟨hsetup, hplane, hhigh, hlow, hrestored⟩ := vgaMode3_spec font s.adapter s.cga256
  have hstate : step font s mode3 = { s with adapter := vgaMode3 font s.adapter s.cga256 } := by
    rw [mode3, step, displayioctl_mode3_text font hboot.2]
  exact screen_of_palette hboot hstate hsetup hplane hhigh hlow hrestored

/-- A state in text mode is kept whatever the screen was that was left. -/
theorem kept_of_booted (h : Booted w.state) : Kept w := by
  have hmode : w.state.graphics = false := by
    unfold State.graphics
    rw [h.1.map]
    rfl
  refine ⟨fun _ => h, fun hgraphics => ?_⟩
  rw [hmode] at hgraphics
  contradiction

/-- A step that leaves the sequencer, the graphics registers and the saved screen
alone keeps what watching keeps. -/
theorem Kept.of_same {w' : Watched} (h : Kept w)
    (hstate : w'.state = { w.state with adapter := a }) (hseq : a.seq = w.state.adapter.seq)
    (hgfx : a.gfx = w.state.adapter.gfx) (hleft : w'.left = w.left) : Kept w' := by
  have hmode : w'.state.graphics = w.state.graphics := by
    unfold State.graphics
    rw [hstate, hgfx]
  constructor
  · intro htextmode
    obtain ⟨hsetup, hnot⟩ := h.text (hmode ▸ htextmode)
    rw [hstate]
    exact ⟨hsetup.congr hseq hgfx, hnot⟩
  · intro hgraphics
    rw [hleft, hstate]
    exact h.graphics (hmode ▸ hgraphics)

/-- The selection of graphics mode in text mode saves the screen. -/
theorem kept_mode13 (hboot : Booted w.state) :
    Kept ⟨step font w.state mode13, screen w.state.adapter⟩ := by
  obtain ⟨hsetup, hnot⟩ := hboot
  obtain ⟨hsave, -, hgfx⟩ :=
    vgaMode13_spec { w.state.adapter with crtcIndex := 15 } w.state.cga256
  rw [mode13, step, displayioctl_mode13 font hnot]
  generalize vgaMode13 { w.state.adapter with crtcIndex := 15 } w.state.cga256 = after
    at hsave hgfx
  constructor
  · intro htextmode
    simp [State.graphics, hgfx] at htextmode
  · intro _
    refine ⟨rfl, w.state.adapter, hsetup, rfl, ?_, rfl, ?_⟩
    · intro k hk
      simp only [readText, if_pos hk, load_textmem hsetup hk]
    · intro i hi
      simp only [hsave i hi, colorOf_encode]

/-- Every other event changes the adapter only, and neither its sequencer nor its
graphics registers. -/
theorem step_other (s : State) {e : Event} (h13 : e ≠ mode13) (h3 : e ≠ mode3) :
    ∃ a, step font s e = { s with adapter := a } ∧ a.seq = s.adapter.seq ∧
      a.gfx = s.adapter.gfx := by
  cases e with
  | ioctl param value =>
    by_cases hparam : param = 1
    · subst hparam
      have hvalue13 : value ≠ 0x13 := fun h => h13 (by rw [h, mode13])
      have hvalue3 : value ≠ 0x3 := fun h => h3 (by rw [h, mode3])
      refine ⟨s.adapter, ?_, rfl, rfl⟩
      rw [step, displayioctl, if_pos rfl, if_neg hvalue13, if_neg hvalue3]
    · by_cases hpalette : param = 2
      · let part := fun k => (value.extractLsb' k 8).toNat
        refine ⟨vgaSetPalette s.adapter (part 24) (part 16) (part 8) (part 0), ?_, rfl, rfl⟩
        rw [step, displayioctl, if_neg hparam, if_pos hpalette]
      · refine ⟨s.adapter, ?_, rfl, rfl⟩
        rw [step, displayioctl, if_neg hparam, if_neg hpalette]
  | store addr value =>
    refine ⟨store s.adapter addr value, rfl, ?_, ?_⟩
    · rw [store_eq]
    · rw [store_eq]
  | cursor pos => exact ⟨setCursorPos s.adapter pos, rfl, rfl, rfl⟩

/-- Watching keeps the saved screen as long as the switches come in pairs. -/
theorem kept_watch {w' : Watched} {e : Event} (hkept : Kept w)
    (hpaired : Paired w e) (hstep : watch font w e = some w') : Kept w' := by
  rw [watch, Option.some.injEq] at hstep
  subst w'
  by_cases h13 : e = mode13
  · have htextmode := hpaired.1 h13
    rw [if_pos ⟨h13, htextmode⟩, h13]
    exact kept_mode13 font (hkept.text htextmode)
  · rw [if_neg (fun h => h13 h.1)]
    by_cases h3 : e = mode3
    · subst h3
      apply kept_of_booted
      cases hgraphics : w.state.graphics with
      | true => exact (screen_mode3 font hkept hgraphics).2
      | false => exact (screen_mode3_text font (hkept.text hgraphics)).1
    · obtain ⟨a, hstate, hseq, hgfx⟩ := step_other font w.state h13 h3
      exact hkept.of_same hstate hseq hgfx rfl

/-- From boot, in every run whose switches come in pairs, selecting text mode in
graphics mode brings back the screen that was there when graphics mode was selected,
and selecting it in text mode changes nothing. -/
theorem text_screen_restored (font : ℕ → Byte) {s₀ : State} (hboot : Booted s₀) {left₀ : Screen}
    {es : List Event} {w : Watched} (h : Along (watch font) Paired ⟨s₀, left₀⟩ (es ++ [mode3]))
    (hrun : run (watch font) ⟨s₀, left₀⟩ es = some w) :
    (w.state.graphics = true → screen (step font w.state mode3).adapter = w.left) ∧
    (w.state.graphics = false →
      screen (step font w.state mode3).adapter = screen w.state.adapter) := by
  obtain ⟨halong, hlast⟩ := along_concat h hrun
  have hinit : Kept ⟨s₀, left₀⟩ := kept_of_booted hboot
  have hkept : Kept w := invariant_along (kept_watch font) hinit halong hrun
  constructor
  · intro hgraphics
    exact (screen_mode3 font hkept hgraphics).1
  · intro htextmode
    refine (screen_mode3_text font (hkept.text htextmode)).2 ?_
    rcases hlast.2 rfl with hgraphics | hpalette
    · rw [htextmode] at hgraphics
      contradiction
    · exact hpalette

/-! ### Switches that do not come in pairs -/

/-- Graphics mode starts with its own palette and saves the one in use, in whatever mode
it is selected. -/
theorem palette_mode13 (s : State) : (step font s mode13).graphics = true ∧ ∀ i < 256,
      (step font s mode13).adapter.palette i = colorOf (vga256.getD i 0) ∧
      colorOf ((step font s mode13).cga256 i) = s.adapter.palette i := by
  have hstep : ∃ a : Adapter, a.palette = s.adapter.palette ∧
      (step font s mode13).adapter = (vgaMode13 a s.cga256).1 ∧
      (step font s mode13).cga256 = (vgaMode13 a s.cga256).2 := by
    rw [mode13, step]
    cases hsaved : s.textSaved with
    | false =>
      refine ⟨{ s.adapter with crtcIndex := 15 }, rfl, ?_⟩
      simp only [displayioctl_mode13 font hsaved, and_self]
    | true =>
      refine ⟨s.adapter, rfl, ?_⟩
      simp only [displayioctl_mode13_saved font hsaved, and_self]
  obtain ⟨a, hpalette, hadapter, hcga⟩ := hstep
  obtain ⟨hsave, hdefault, hgfx⟩ := vgaMode13_spec a s.cga256
  rw [State.graphics, hadapter, hcga, hgfx]
  refine ⟨rfl, fun i hi => ⟨hdefault i hi, ?_⟩⟩
  rw [hsave i hi, colorOf_encode, hpalette]

/-- Text mode starts with the saved palette, in whatever mode it is selected. -/
theorem palette_mode3 (s : State) {i : ℕ} (hi : i < 256) :
    (step font s mode3).adapter.palette i = colorOf (s.cga256 i) := by
  obtain ⟨hsetup, -, -, -, hrestored⟩ := vgaMode3_spec font s.adapter s.cga256
  rw [← hrestored i hi]
  cases hsaved : s.textSaved with
  | false => rw [mode3, step, displayioctl_mode3_text font hsaved]
  | true =>
    obtain ⟨plane, hwrite, -⟩ := writeText_eq hsetup s.savedTextMem
    rw [mode3, step, displayioctl_mode3 font hsaved, hwrite, setCursorPos_eq]

/-- Selected a second time, graphics mode saves its own palette, and text mode comes
back with that. -/
theorem palette_mode13_mode13_mode3 (s : State) {i : ℕ} (hi : i < 256) :
    (step font (step font (step font s mode13) mode13) mode3).adapter.palette i =
      colorOf (vga256.getD i 0) := by
  obtain ⟨-, hfirst⟩ := palette_mode13 font s
  obtain ⟨-, hsecond⟩ := palette_mode13 font (step font s mode13)
  rw [palette_mode3 font _ hi, (hsecond i hi).2, (hfirst i hi).1]

/-- A state after boot: a blank text screen in white. -/
def bootState : State where
  adapter := {
    misc := 0x67, seqIndex := 0, crtcIndex := 0, gfxIndex := 0, attrData := false, attrIndex := 0
    dacIndex := 0, dacPart := 0
    seq := fun i => if i = 2 then 3 else if i = 4 then 2 else 0
    crtc := fun _ => 0
    gfx := fun i => if i = 6 then 0x0E else 0
    attr := fun _ => 0
    palette := fun _ => ⟨63, 63, 63⟩
    plane := fun _ _ => 0 }
  cga256 := fun _ => 0
  savedTextMem := fun _ => 0
  textSaved := false
  savedCursorPos := 0

theorem booted_bootState : Booted bootState := ⟨⟨rfl, rfl, rfl, rfl⟩, rfl⟩

/-- Graphics mode and back, from boot. -/
theorem boot_screen_restored : Booted bootState ∧
    screen (step 0 (step 0 bootState mode13) mode3).adapter = screen bootState.adapter := by
  have hwatch : watch 0 ⟨bootState, screen bootState.adapter⟩ mode13 =
      some ⟨step 0 bootState mode13, screen bootState.adapter⟩ := by
    rw [watch, ite_self]
  have hgraphics := (palette_mode13 0 bootState).1
  have hrun : run (watch 0) ⟨bootState, screen bootState.adapter⟩ [mode13] =
      some ⟨step 0 bootState mode13, screen bootState.adapter⟩ := by
    rw [run, hwatch, Option.bind_some, run]
  have halong : Along (watch 0) Paired ⟨bootState, screen bootState.adapter⟩
      ([mode13] ++ [mode3]) := by
    refine ⟨⟨fun _ => rfl, by decide⟩, ?_⟩
    intro w hw
    rw [hwatch, Option.some.injEq] at hw
    subst w
    exact ⟨⟨by decide, fun _ => .inl hgraphics⟩, fun _ _ => trivial⟩
  exact ⟨booted_bootState, (text_screen_restored 0 booted_bootState halong hrun).1 hgraphics⟩

/-- From boot, graphics mode selected twice loses the palette, and so does text mode
selected at once: the first comes back with the palette of graphics mode, the second
with a black one that was never saved. -/
theorem palette_lost : Booted bootState ∧
    run (watch 0) ⟨bootState, screen bootState.adapter⟩ [mode13, mode13] =
      some ⟨step 0 (step 0 bootState mode13) mode13, screen bootState.adapter⟩ ∧
    (screen (step 0 (step 0 (step 0 bootState mode13) mode13) mode3).adapter).palette ≠
      (screen bootState.adapter).palette ∧ bootState.graphics = false ∧
    (screen (step 0 bootState mode3).adapter).palette ≠ (screen bootState.adapter).palette := by
  have hfirst : ∀ {a b : Adapter}, (screen a).palette = (screen b).palette →
      a.palette 0 = b.palette 0 := by
    intro a b h
    exact map_inj_left.mp h 0 (by simp)
  refine ⟨booted_bootState, ?_, ?_, rfl, ?_⟩
  · have hgraphics := (palette_mode13 0 bootState).1
    simp [run, watch, hgraphics]
  · intro h
    have hentry := hfirst h
    rw [palette_mode13_mode13_mode3 0 bootState (by decide)] at hentry
    exact absurd hentry (by decide)
  · intro h
    have hentry := hfirst h
    rw [palette_mode3 0 bootState (by decide)] at hentry
    exact absurd hentry (by decide)

end Xv6Draw.Vga
