import Mathlib.Data.BitVec

/-!
# The VGA driver

The parts of a VGA adapter that `vga.c` programs: the register files behind their
index ports, the palette behind the ports of the converter, and the four planes of
display memory behind the window at 0xA0000. Above it the functions of `vga.c`, as
the port accesses that they make. Text mode keeps its characters in planes 0 and 1
and its font in plane 2.
-/

namespace Xv6Draw.Vga

open BitVec Function List Nat

/-- A register or a byte of memory. -/
abbrev Byte := BitVec 8

/-- An entry of the palette, six bits for each part. -/
structure Color where
  red : BitVec 6
  green : BitVec 6
  blue : BitVec 6
  deriving DecidableEq

/-- The adapter. -/
structure Adapter where
  /-- The miscellaneous output register. -/
  misc : Byte
  seqIndex : ℕ
  seq : ℕ → Byte
  crtcIndex : ℕ
  /-- The registers of the display controller; 14 and 15 are the cursor position. -/
  crtc : ℕ → Byte
  gfxIndex : ℕ
  gfx : ℕ → Byte
  /-- Whether the next byte for the attribute controller is data. -/
  attrData : Bool
  attrIndex : ℕ
  attr : ℕ → Byte
  /-- The entry of the palette that is accessed next. -/
  dacIndex : ℕ
  /-- The part of that entry that is accessed next. -/
  dacPart : ℕ
  palette : ℕ → Color
  /-- The display memory, by plane and offset. -/
  plane : ℕ → ℕ → Byte

/-- One part of a colour. -/
def Color.part (c : Color) : ℕ → BitVec 6
  | 0 => c.red
  | 1 => c.green
  | _ => c.blue

/-- A colour with one part replaced. -/
def Color.setPart (c : Color) (v : BitVec 6) : ℕ → Color
  | 0 => { c with red := v }
  | 1 => { c with green := v }
  | _ => { c with blue := v }

/-- The converter goes on to the next part, and behind the last to the next entry. -/
def Adapter.nextPart (a : Adapter) : Adapter :=
  if a.dacPart = 2 then { a with dacPart := 0, dacIndex := (a.dacIndex + 1) % 256 }
  else { a with dacPart := a.dacPart + 1 }

/-- `outb`, of the low byte of a value. -/
def outb (a : Adapter) (port value : ℕ) : Adapter :=
  let byte := BitVec.ofNat 8 value
  match port with
  | 0x3C0 =>
    if a.attrData then { a with attr := update a.attr a.attrIndex byte, attrData := false }
    else { a with attrIndex := byte.toNat, attrData := true }
  | 0x3C2 => { a with misc := byte }
  | 0x3C4 => { a with seqIndex := byte.toNat }
  | 0x3C5 => { a with seq := update a.seq a.seqIndex byte }
  | 0x3C7 => { a with dacIndex := byte.toNat, dacPart := 0 }
  | 0x3C8 => { a with dacIndex := byte.toNat, dacPart := 0 }
  | 0x3C9 =>
    let color := (a.palette a.dacIndex).setPart (BitVec.ofNat 6 value) a.dacPart
    Adapter.nextPart { a with palette := update a.palette a.dacIndex color }
  | 0x3CE => { a with gfxIndex := byte.toNat }
  | 0x3CF => { a with gfx := update a.gfx a.gfxIndex byte }
  | 0x3D4 => { a with crtcIndex := byte.toNat }
  | 0x3D5 => { a with crtc := update a.crtc a.crtcIndex byte }
  | _ => a

/-- `inb`. The status port 0x3DA makes the attribute controller expect an index;
its bits are not used. -/
def inb (a : Adapter) (port : ℕ) : ℕ × Adapter :=
  match port with
  | 0x3C9 => (((a.palette a.dacIndex).part a.dacPart).toNat, a.nextPart)
  | 0x3D5 => ((a.crtc a.crtcIndex).toNat, a)
  | 0x3DA => (0, { a with attrData := false })
  | _ => (0, a)

/-- The offset in the display memory that an address selects: graphics register 6
maps one of four ranges. -/
def decode (a : Adapter) (addr : ℕ) : Option ℕ :=
  match (a.gfx 6).toNat / 4 % 4 with
  | 0 => if 0xA0000 ≤ addr ∧ addr < 0xC0000 then some (addr - 0xA0000) else none
  | 1 => if 0xA0000 ≤ addr ∧ addr < 0xB0000 then some (addr - 0xA0000) else none
  | 2 => if 0xB0000 ≤ addr ∧ addr < 0xB8000 then some (addr - 0xB0000) else none
  | _ => if 0xB8000 ≤ addr ∧ addr < 0xC0000 then some (addr - 0xB8000) else none

/-- The plane and the place in it that a store to an offset reaches, in the order of
the planes: one plane of four in the chained layout, one of two with odd and even
addresses apart, or every plane. Only planes in the map mask are written. -/
def storePlane (a : Adapter) (off plane : ℕ) : Option ℕ :=
  if !(a.seq 2).getLsbD plane then none
  else if (a.seq 4).getLsbD 3 then if plane = off % 4 then some (off - off % 4) else none
  else if !(a.seq 4).getLsbD 2 then if plane = off % 2 then some (off - off % 2) else none
  else some off

/-- A store of a byte to an address of the display memory. -/
def store (a : Adapter) (addr : ℕ) (value : Byte) : Adapter :=
  match decode a addr with
  | none => a
  | some off =>
    { a with plane := fun p => match storePlane a off p with
        | some place => update (a.plane p) place value
        | none => a.plane p }

/-- A load of a byte from an address of the display memory. -/
def load (a : Adapter) (addr : ℕ) : Byte :=
  match decode a addr with
  | none => 0xFF
  | some off =>
    if (a.seq 4).getLsbD 3 then a.plane (off % 4) (off - off % 4)
    else if !(a.seq 4).getLsbD 2 then
      a.plane ((if (a.gfx 4).getLsbD 1 then 2 else 0) + off % 2) (off - off % 2)
    else a.plane ((a.gfx 4).toNat % 4) off

/-! ### The functions of the driver -/

/-- `write3C0`. -/
def write3C0 (a : Adapter) (index value : ℕ) : Adapter :=
  outb (outb (inb a 0x3DA).2 0x3C0 index) 0x3C0 value

/-- `write3C2`. -/
def write3C2 (a : Adapter) (value : ℕ) : Adapter := outb a 0x3C2 value

/-- `write3C4`. -/
def write3C4 (a : Adapter) (index value : ℕ) : Adapter := outb (outb a 0x3C4 index) 0x3C5 value

/-- `write3CE`. -/
def write3CE (a : Adapter) (index value : ℕ) : Adapter := outb (outb a 0x3CE index) 0x3CF value

/-- `write3D4`. -/
def write3D4 (a : Adapter) (index value : ℕ) : Adapter := outb (outb a 0x3D4 index) 0x3D5 value

/-- `vgaSetPalette`. -/
def vgaSetPalette (a : Adapter) (index r g b : ℕ) : Adapter :=
  outb (outb (outb (outb a 0x3C8 index) 0x3C9 r) 0x3C9 g) 0x3C9 b

/-- The parts that both palette loops take out of an entry of their table. -/
def setEntry (table : ℕ → ℕ) (a : Adapter) (i : ℕ) : Adapter :=
  vgaSetPalette a i ((table i >>> 18) &&& 0x3f) ((table i >>> 10) &&& 0x3f)
    ((table i >>> 2) &&& 0x3f)

/-- `vga256_24bit`. -/
def vga256 : List ℕ := [
    0x000000, 0x0000a8, 0x00a800, 0x00a8a8, 0xa80000, 0xa800a8, 0xa85400, 0xa8a8a8,
    0x545454, 0x5454fc, 0x54fc54, 0x54fcfc, 0xfc5454, 0xfc54fc, 0xfcfc54, 0xfcfcfc,
    0x000000, 0x141414, 0x202020, 0x2c2c2c, 0x383838, 0x444444, 0x505050, 0x606060,
    0x707070, 0x808080, 0x909090, 0xa0a0a0, 0xb4b4b4, 0xc8c8c8, 0xe0e0e0, 0xfcfcfc,
    0x0000fc, 0x4000fc, 0x7c00fc, 0xbc00fc, 0xfc00fc, 0xfc00bc, 0xfc007c, 0xfc0040,
    0xfc0000, 0xfc4000, 0xfc7c00, 0xfcbc00, 0xfcfc00, 0xbcfc00, 0x7cfc00, 0x40fc00,
    0x00fc00, 0x00fc40, 0x00fc7c, 0x00fcbc, 0x00fcfc, 0x00bcfc, 0x007cfc, 0x0040fc,
    0x7c7cfc, 0x9c7cfc, 0xbc7cfc, 0xdc7cfc, 0xfc7cfc, 0xfc7cdc, 0xfc7cbc, 0xfc7c9c,
    0xfc7c7c, 0xfc9c7c, 0xfcbc7c, 0xfcdc7c, 0xfcfc7c, 0xdcfc7c, 0xbcfc7c, 0x9cfc7c,
    0x7cfc7c, 0x7cfc9c, 0x7cfcbc, 0x7cfcdc, 0x7cfcfc, 0x7cdcfc, 0x7cbcfc, 0x7c9cfc,
    0xb4b4fc, 0xc4b4fc, 0xd8b4fc, 0xe8b4fc, 0xfcb4fc, 0xfcb4e8, 0xfcb4d8, 0xfcb4c4,
    0xfcb4b4, 0xfcc4b4, 0xfcd8b4, 0xfce8b4, 0xfcfcb4, 0xe8fcb4, 0xd8fcb4, 0xc4fcb4,
    0xb4fcb4, 0xb4fcc4, 0xb4fcd8, 0xb4fce8, 0xb4fcfc, 0xb4e8fc, 0xb4d8fc, 0xb4c4fc,
    0x000070, 0x1c0070, 0x380070, 0x540070, 0x700070, 0x700054, 0x700038, 0x70001c,
    0x700000, 0x701c00, 0x703800, 0x705400, 0x707000, 0x547000, 0x387000, 0x1c7000,
    0x007000, 0x00701c, 0x007038, 0x007054, 0x007070, 0x005470, 0x003870, 0x001c70,
    0x383870, 0x443870, 0x543870, 0x603870, 0x703870, 0x703860, 0x703854, 0x703844,
    0x703838, 0x704438, 0x705438, 0x706038, 0x707038, 0x607038, 0x547038, 0x447038,
    0x387038, 0x387044, 0x387054, 0x387060, 0x387070, 0x386070, 0x385470, 0x384470,
    0x505070, 0x585070, 0x605070, 0x685070, 0x705070, 0x705068, 0x705060, 0x705058,
    0x705050, 0x705850, 0x706050, 0x706850, 0x707050, 0x687050, 0x607050, 0x587050,
    0x507050, 0x507058, 0x507060, 0x507068, 0x507070, 0x506870, 0x506070, 0x505870,
    0x000040, 0x100040, 0x200040, 0x300040, 0x400040, 0x400030, 0x400020, 0x400010,
    0x400000, 0x401000, 0x402000, 0x403000, 0x404000, 0x304000, 0x204000, 0x104000,
    0x004000, 0x004010, 0x004020, 0x004030, 0x004040, 0x003040, 0x002040, 0x001040,
    0x202040, 0x282040, 0x302040, 0x382040, 0x402040, 0x402038, 0x402030, 0x402028,
    0x402020, 0x402820, 0x403020, 0x403820, 0x404020, 0x384020, 0x304020, 0x284020,
    0x204020, 0x204028, 0x204030, 0x204038, 0x204040, 0x203840, 0x203040, 0x202840,
    0x2c2c40, 0x302c40, 0x342c40, 0x3c2c40, 0x402c40, 0x402c3c, 0x402c34, 0x402c30,
    0x402c2c, 0x40302c, 0x40342c, 0x403c2c, 0x40402c, 0x3c402c, 0x34402c, 0x30402c,
    0x2c402c, 0x2c4030, 0x2c4034, 0x2c403c, 0x2c4040, 0x2c3c40, 0x2c3440, 0x2c3040,
    0x000000, 0x000000, 0x000000, 0x000000, 0x000000, 0x000000, 0x000000, 0x000000]

/-- `setdefaultVGApalette`. -/
def setdefaultVGApalette (a : Adapter) : Adapter :=
  (range 256).foldl (setEntry fun i => vga256.getD i 0) a

/-- A pass of the loop of `cgaSavePalette`. -/
def saveEntry (s : Adapter × (ℕ → ℕ)) (i : ℕ) : Adapter × (ℕ → ℕ) :=
  let (r, a) := inb s.1 0x3C9
  let (g, a) := inb a 0x3C9
  let (b, a) := inb a 0x3C9
  (a, update s.2 i (r <<< 18 ||| g <<< 10 ||| b <<< 2))

/-- `cgaSavePalette`, with the array `cga256`. -/
def cgaSavePalette (a : Adapter) (cga256 : ℕ → ℕ) : Adapter × (ℕ → ℕ) :=
  (range 256).foldl saveEntry (outb a 0x3C7 0, cga256)

/-- `cgaRestorePalette`. -/
def cgaRestorePalette (a : Adapter) (cga256 : ℕ → ℕ) : Adapter :=
  (range 256).foldl (setEntry cga256) a

/-- The same function called for each entry of a table. -/
def writeAll (write : Adapter → ℕ → ℕ → Adapter) (table : List (ℕ × ℕ)) (a : Adapter) : Adapter :=
  table.foldl (fun a e => write a e.1 e.2) a

/-- The sequencer registers of `vgaMode13`. -/
def mode13Seq : List (ℕ × ℕ) :=
  [(0x00, 0x03), (0x01, 0x01), (0x02, 0x0F), (0x03, 0x00), (0x04, 0x0E)]

/-- The display controller registers of `vgaMode13`, with the unlocking first. -/
def mode13Crtc : List (ℕ × ℕ) :=
  [(0x11, 0x0E), (0x00, 0x5F), (0x01, 0x4F), (0x02, 0x50), (0x03, 0x82), (0x04, 0x54),
    (0x05, 0x80), (0x06, 0xBF), (0x07, 0x1F), (0x08, 0x00), (0x09, 0x41), (0x10, 0x9C),
    (0x12, 0x8F), (0x13, 0x28), (0x14, 0x40), (0x15, 0x96), (0x16, 0xB9), (0x17, 0xA3),
    (0x18, 0xFF)]

/-- The graphics registers of `vgaMode13`. -/
def mode13Gfx : List (ℕ × ℕ) :=
  [(0x00, 0x00), (0x01, 0x00), (0x02, 0x00), (0x03, 0x00), (0x04, 0x00), (0x05, 0x40),
    (0x06, 0x05), (0x07, 0x0F), (0x08, 0xFF)]

/-- The attribute registers of `vgaMode13`. -/
def mode13Attr : List (ℕ × ℕ) :=
  [(0x00, 0x00), (0x01, 0x01), (0x02, 0x02), (0x03, 0x03), (0x04, 0x04), (0x05, 0x05),
    (0x06, 0x06), (0x07, 0x07), (0x08, 0x08), (0x09, 0x09), (0x0A, 0x0A), (0x0B, 0x0B),
    (0x0C, 0x0C), (0x0D, 0x0D), (0x0E, 0x0E), (0x0F, 0x0F), (0x10, 0x41), (0x11, 0x00),
    (0x12, 0x0F), (0x13, 0x00), (0x14, 0x00)]

/-- The register accesses of `vgaMode13`. -/
def mode13Registers (a : Adapter) : Adapter :=
  let a := write3C2 a 0x63
  let a := writeAll write3C4 mode13Seq a
  let a := writeAll write3D4 mode13Crtc a
  let a := writeAll write3CE mode13Gfx a
  let a := writeAll write3C0 mode13Attr a
  outb (inb a 0x3DA).2 0x3C0 0x20

/-- `vgaMode13`. -/
def vgaMode13 (a : Adapter) (cga256 : ℕ → ℕ) : Adapter × (ℕ → ℕ) :=
  let (a, cga256) := cgaSavePalette a cga256
  (setdefaultVGApalette (mode13Registers a), cga256)

/-- The sequencer registers of `vgaMode3`. -/
def mode3Seq : List (ℕ × ℕ) :=
  [(0x00, 0x03), (0x01, 0x00), (0x02, 0x03), (0x03, 0x00), (0x04, 0x02)]

/-- The display controller registers of `vgaMode3`, with the unlocking first. -/
def mode3Crtc : List (ℕ × ℕ) :=
  [(0x11, 0x0E), (0x00, 0x5F), (0x01, 0x4F), (0x02, 0x50), (0x03, 0x82), (0x04, 0x55),
    (0x05, 0x81), (0x06, 0xBF), (0x07, 0x1F), (0x08, 0x00), (0x09, 0x4F), (0x0A, 0x0D),
    (0x0B, 0x0E), (0x0C, 0x00), (0x0D, 0x00), (0x10, 0x9C), (0x11, 0x8E), (0x12, 0x8F),
    (0x13, 0x28), (0x14, 0x1F), (0x15, 0x96), (0x16, 0xB9), (0x17, 0xA3), (0x18, 0xFF)]

/-- The graphics registers of `vgaMode3`. -/
def mode3Gfx : List (ℕ × ℕ) :=
  [(0x00, 0x00), (0x01, 0x00), (0x02, 0x00), (0x03, 0x00), (0x04, 0x00), (0x05, 0x10),
    (0x06, 0x0E), (0x07, 0x00), (0x08, 0xFF)]

/-- The attribute registers of `vgaMode3`. -/
def mode3Attr : List (ℕ × ℕ) :=
  [(0x00, 0x00), (0x01, 0x01), (0x02, 0x02), (0x03, 0x03), (0x04, 0x04), (0x05, 0x05),
    (0x06, 0x14), (0x07, 0x07), (0x08, 0x38), (0x09, 0x39), (0x0A, 0x3A), (0x0B, 0x3B),
    (0x0C, 0x3C), (0x0D, 0x3D), (0x0E, 0x3E), (0x0F, 0x3F), (0x10, 0x0C), (0x11, 0x00),
    (0x12, 0x0F), (0x13, 0x08), (0x14, 0x00)]

/-- The sequencer registers around the copy of the font: plane 2 alone, before it. -/
def fontSeq : List (ℕ × ℕ) :=
  [(0x00, 0x01), (0x02, 0x04), (0x04, 0x07), (0x00, 0x03)]

/-- The graphics registers before the copy of the font. -/
def fontGfx : List (ℕ × ℕ) :=
  [(0x04, 0x02), (0x05, 0x00), (0x06, 0x00)]

/-- The sequencer registers behind the copy of the font. -/
def textSeq : List (ℕ × ℕ) :=
  [(0x00, 0x01), (0x02, 0x03), (0x03, 0x00), (0x04, 0x02), (0x00, 0x03)]

/-- The graphics registers behind the copy of the font. -/
def textGfx : List (ℕ × ℕ) :=
  [(0x02, 0x00), (0x03, 0x00), (0x04, 0x00), (0x05, 0x10), (0x06, 0x0E)]

/-- The copy of the font to the window: 16 of every 32 bytes. -/
def copyFont (font : ℕ → Byte) (a : Adapter) : Adapter :=
  (range 4096).foldl (fun a k =>
    store a (0xA0000 + (2 * (k - k % 16) + k % 16)) (font k)) a

/-- `vgaMode3` up to the copy of the font. -/
def mode3Registers (a : Adapter) : Adapter :=
  let a := write3C2 a 0x67
  let a := writeAll write3C4 mode3Seq a
  let a := writeAll write3D4 mode3Crtc a
  let a := writeAll write3CE mode3Gfx a
  let a := writeAll write3C0 mode3Attr (inb a 0x3DA).2
  writeAll write3CE fontGfx (writeAll write3C4 fontSeq a)

/-- `vgaMode3` from the copy of the font up to the palette. -/
def textRegisters (a : Adapter) : Adapter :=
  let a := writeAll write3CE textGfx (writeAll write3C4 textSeq a)
  outb (inb a 0x3DA).2 0x3C0 0x20

/-- `vgaMode3`, with the font of the driver as a parameter. -/
def vgaMode3 (font : ℕ → Byte) (a : Adapter) (cga256 : ℕ → ℕ) : Adapter :=
  cgaRestorePalette (textRegisters (copyFont font (mode3Registers a))) cga256

/-! ### Register tables -/

/-- A register file after a table of writes. -/
def setAll (table : List (ℕ × ℕ)) (regs : ℕ → Byte) : ℕ → Byte :=
  table.foldl (fun regs e => update regs e.1 (BitVec.ofNat 8 e.2)) regs

/-- The registers are set by tables of writes; the palette and the display memory
stay. -/
structure Sets (seq crtc gfx : List (ℕ × ℕ)) (a b : Adapter) : Prop where
  seq : b.seq = setAll seq a.seq
  crtc : b.crtc = setAll crtc a.crtc
  gfx : b.gfx = setAll gfx a.gfx
  palette : b.palette = a.palette
  plane : b.plane = a.plane

variable (a : Adapter)

theorem Sets.refl : Sets [] [] [] a a := ⟨rfl, rfl, rfl, rfl, rfl⟩

theorem Sets.trans {s c g s' c' g' : List (ℕ × ℕ)} {a b d : Adapter} (hab : Sets s c g a b)
    (hbd : Sets s' c' g' b d) : Sets (s ++ s') (c ++ c') (g ++ g') a d := by
  constructor
  · rw [hbd.seq, hab.seq, setAll, setAll, setAll, foldl_append]
  · rw [hbd.crtc, hab.crtc, setAll, setAll, setAll, foldl_append]
  · rw [hbd.gfx, hab.gfx, setAll, setAll, setAll, foldl_append]
  · rw [hbd.palette, hab.palette]
  · rw [hbd.plane, hab.plane]

theorem toNat_index {index : ℕ} (h : index < 256) : (BitVec.ofNat 8 index).toNat = index := by
  simp [mod_eq_of_lt h]

theorem sets_seq (table : List (ℕ × ℕ)) (h : ∀ e ∈ table, e.1 < 256) (a : Adapter) :
    Sets table [] [] a (writeAll write3C4 table a) := by
  induction table generalizing a with
  | nil => exact Sets.refl a
  | cons e table ih =>
    have hwrite : Sets [e] [] [] a (write3C4 a e.1 e.2) := by
      constructor <;> simp [write3C4, outb, setAll, mod_eq_of_lt (h e (by simp))]
    exact hwrite.trans (ih (fun f hf => h f (by simp [hf])) _)

/-- A table of registers of the display controller. -/
theorem sets_crtc (table : List (ℕ × ℕ)) (h : ∀ e ∈ table, e.1 < 256) (a : Adapter) :
    Sets [] table [] a (writeAll write3D4 table a) := by
  induction table generalizing a with
  | nil => exact Sets.refl a
  | cons e table ih =>
    have hwrite : Sets [] [e] [] a (write3D4 a e.1 e.2) := by
      constructor <;> simp [write3D4, outb, setAll, mod_eq_of_lt (h e (by simp))]
    exact hwrite.trans (ih (fun f hf => h f (by simp [hf])) _)

theorem sets_gfx (table : List (ℕ × ℕ)) (h : ∀ e ∈ table, e.1 < 256) (a : Adapter) :
    Sets [] [] table a (writeAll write3CE table a) := by
  induction table generalizing a with
  | nil => exact Sets.refl a
  | cons e table ih =>
    have hwrite : Sets [] [] [e] a (write3CE a e.1 e.2) := by
      constructor <;> simp [write3CE, outb, setAll, mod_eq_of_lt (h e (by simp))]
    exact hwrite.trans (ih (fun f hf => h f (by simp [hf])) _)

theorem sets_outb_attr (value : ℕ) : Sets [] [] [] a (outb a 0x3C0 value) := by
  unfold outb
  simp only
  split_ifs <;> exact ⟨rfl, rfl, rfl, rfl, rfl⟩

theorem sets_status : Sets [] [] [] a (inb a 0x3DA).2 := ⟨rfl, rfl, rfl, rfl, rfl⟩

theorem sets_attr (table : List (ℕ × ℕ)) (a : Adapter) :
    Sets [] [] [] a (writeAll write3C0 table a) := by
  induction table generalizing a with
  | nil => exact Sets.refl a
  | cons e table ih =>
    have hwrite : Sets [] [] [] a (write3C0 a e.1 e.2) :=
      (sets_status a).trans ((sets_outb_attr _ _).trans (sets_outb_attr _ _))
    exact hwrite.trans (ih _)

theorem sets_misc (value : ℕ) : Sets [] [] [] a (write3C2 a value) :=
  ⟨rfl, rfl, rfl, rfl, rfl⟩

theorem sets_mode13Registers :
    Sets mode13Seq mode13Crtc mode13Gfx a (mode13Registers a) := by
  have h := (sets_misc a 0x63).trans ((sets_seq mode13Seq (by decide) _).trans
    ((sets_crtc mode13Crtc (by decide) _).trans ((sets_gfx mode13Gfx (by decide) _).trans
      ((sets_attr mode13Attr _).trans ((sets_status _).trans (sets_outb_attr _ 0x20))))))
  simpa [mode13Registers] using h

/-- The registers of text mode up to the copy of the font. -/
theorem sets_mode3Registers :
    Sets (mode3Seq ++ fontSeq) mode3Crtc (mode3Gfx ++ fontGfx) a (mode3Registers a) := by
  have h := (sets_misc a 0x67).trans ((sets_seq mode3Seq (by decide) _).trans
    ((sets_crtc mode3Crtc (by decide) _).trans ((sets_gfx mode3Gfx (by decide) _).trans
      ((sets_status _).trans ((sets_attr mode3Attr _).trans
        ((sets_seq fontSeq (by decide) _).trans (sets_gfx fontGfx (by decide) _)))))))
  simpa [mode3Registers] using h

theorem sets_textRegisters : Sets textSeq [] textGfx a (textRegisters a) := by
  have h := (sets_seq textSeq (by decide) a).trans ((sets_gfx textGfx (by decide) _).trans
    ((sets_status _).trans (sets_outb_attr _ 0x20)))
  simpa [textRegisters] using h

/-! ### The palette -/

/-- The colour in an entry of the tables of `vga.c`. -/
def colorOf (value : ℕ) : Color :=
  ⟨BitVec.ofNat 6 ((value >>> 18) &&& 0x3f), BitVec.ofNat 6 ((value >>> 10) &&& 0x3f),
    BitVec.ofNat 6 ((value >>> 2) &&& 0x3f)⟩

/-- The entry that `cgaSavePalette` makes of a colour. -/
def Color.encode (c : Color) : ℕ :=
  c.red.toNat <<< 18 ||| c.green.toNat <<< 10 ||| c.blue.toNat <<< 2

/-- A saved colour is read back exactly. -/
theorem colorOf_encode (c : Color) : colorOf c.encode = c := by
  have hvalue : c.encode = c.red.toNat * 2 ^ 18 + c.green.toNat * 2 ^ 10 + c.blue.toNat * 2 ^ 2 := by
    unfold Color.encode
    rw [Nat.or_assoc, ← shiftLeft_add_eq_or_of_lt (b := c.blue.toNat <<< 2),
      ← shiftLeft_add_eq_or_of_lt (b := c.green.toNat <<< 10 + c.blue.toNat <<< 2)]
    · simp only [Nat.shiftLeft_eq]
      omega
    · simp only [Nat.shiftLeft_eq]
      omega
    · simp only [Nat.shiftLeft_eq]
      omega
  have hmask : ∀ n, n &&& 0x3f = n % 64 := fun n => and_two_pow_sub_one_eq_mod n 6
  obtain ⟨red, green, blue⟩ := c
  unfold colorOf
  simp only [hvalue, hmask, shiftRight_eq_div_pow, Color.mk.injEq]
  refine ⟨?_, ?_, ?_⟩
  · apply eq_of_toNat_eq
    rw [toNat_ofNat]
    omega
  · apply eq_of_toNat_eq
    rw [toNat_ofNat]
    omega
  · apply eq_of_toNat_eq
    rw [toNat_ofNat]
    omega

theorem setEntry_eq (table : ℕ → ℕ) (a : Adapter) {i : ℕ} (h : i < 256) :
    setEntry table a i = { a with
      palette := update a.palette i (colorOf (table i)), dacIndex := (i + 1) % 256,
      dacPart := 0 } := by
  simp only [setEntry, vgaSetPalette, outb, toNat_index h, Adapter.nextPart, Color.setPart, colorOf]
  simp

/-- Both palette loops set the entries in order. -/
theorem foldl_setEntry (table : ℕ → ℕ) (a : Adapter) {n : ℕ} (h : n ≤ 256) :
    ∃ index part, (range n).foldl (setEntry table) a = { a with
      palette := fun i => if i < n then colorOf (table i) else a.palette i, dacIndex := index,
      dacPart := part } := by
  induction n with
  | zero => exact ⟨a.dacIndex, a.dacPart, by simp⟩
  | succ n ih =>
    obtain ⟨index, part, hprev⟩ := ih (by omega)
    refine ⟨(n + 1) % 256, 0, ?_⟩
    rw [range_succ, foldl_append, hprev, foldl_cons, foldl_nil, setEntry_eq table _ (by omega)]
    simp only [Adapter.mk.injEq, and_true, true_and]
    funext i
    by_cases hi : i = n
    · subst i
      rw [update_self, if_pos (by omega)]
    · rw [update_of_ne hi]
      by_cases hlt : i < n
      · rw [if_pos hlt, if_pos (by omega)]
      · rw [if_neg hlt, if_neg (by omega)]

theorem cgaRestorePalette_eq (cga256 : ℕ → ℕ) :
    ∃ index part, cgaRestorePalette a cga256 = { a with
      palette := fun i => if i < 256 then colorOf (cga256 i) else a.palette i, dacIndex := index,
      dacPart := part } :=
  foldl_setEntry cga256 a le_rfl

theorem setdefaultVGApalette_eq :
    ∃ index part, setdefaultVGApalette a = { a with
      palette := fun i => if i < 256 then colorOf (vga256.getD i 0) else a.palette i,
      dacIndex := index, dacPart := part } :=
  foldl_setEntry _ a le_rfl

theorem saveEntry_eq (h : a.dacPart = 0) (cga256 : ℕ → ℕ) (i : ℕ) :
    saveEntry (a, cga256) i = ({ a with dacIndex := (a.dacIndex + 1) % 256 },
      update cga256 i (a.palette a.dacIndex).encode) := by
  simp [saveEntry, inb, Adapter.nextPart, h, Color.part, Color.encode]

/-- `cgaSavePalette` saves the palette. -/
theorem cgaSavePalette_eq (cga256 : ℕ → ℕ) :
    cgaSavePalette a cga256 = ({ a with dacIndex := 0, dacPart := 0 },
      fun i => if i < 256 then (a.palette i).encode else cga256 i) := by
  have hloop : ∀ n ≤ 256, (range n).foldl saveEntry (outb a 0x3C7 0, cga256) =
      ({ a with dacIndex := n % 256, dacPart := 0 },
        fun i => if i < n then (a.palette i).encode else cga256 i) := by
    intro n hn
    induction n with
    | zero => simp [outb]
    | succ n ih =>
      rw [range_succ, foldl_append, ih (by omega), foldl_cons, foldl_nil,
        saveEntry_eq _ rfl]
      simp only [Prod.mk.injEq, Adapter.mk.injEq, true_and, and_true]
      refine ⟨by omega, ?_⟩
      funext i
      by_cases hi : i = n
      · subst i
        rw [update_self, if_pos (by omega), mod_eq_of_lt (by omega)]
      · rw [update_of_ne hi]
        by_cases hlt : i < n
        · rw [if_pos hlt, if_pos (by omega)]
        · rw [if_neg hlt, if_neg (by omega)]
  exact hloop 256 le_rfl

/-! ### Display memory -/

theorem store_eq (addr : ℕ) (value : Byte) :
    store a addr value = { a with plane := (store a addr value).plane } := by
  unfold store
  split <;> rfl

/-- The copy of the font changes display memory only, and of that only plane 2, while
plane 2 alone is in the map mask. -/
theorem copyFont_eq (font : ℕ → Byte) {a : Adapter} (hmask : a.seq 2 = 4) :
    ∃ plane, copyFont font a = { a with plane := plane } ∧ ∀ p, p ≠ 2 → plane p = a.plane p := by
  have hstore : ∀ (b : Adapter) addr value, b.seq 2 = 4 →
      ∀ p, p ≠ 2 → (store b addr value).plane p = b.plane p := by
    intro b addr value hb p hp
    unfold store
    split
    · rfl
    · next off _ =>
      have hnot : storePlane b off p = none := by
        have hbit : (b.seq 2).getLsbD p = false := by
          rw [hb]
          by_cases hlt : p < 8
          · exact (show ∀ p < 8, p ≠ 2 → (4 : Byte).getLsbD p = false by decide) p hlt hp
          · exact getLsbD_of_ge _ _ (by omega)
        simp [storePlane, hbit]
      simp only [hnot]
  unfold copyFont
  refine List.foldlRecOn (motive := fun b => ∃ plane, b = { a with plane := plane } ∧
    ∀ p, p ≠ 2 → plane p = a.plane p) _ _ ⟨a.plane, rfl, fun _ _ => rfl⟩ ?_
  rintro b ⟨plane, rfl, hplane⟩ k _
  refine ⟨_, store_eq _ _ _, ?_⟩
  intro p hp
  exact (hstore { a with plane := plane } _ _ hmask p hp).trans (hplane p hp)

end Xv6Draw.Vga
