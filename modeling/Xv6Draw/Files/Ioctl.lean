import Xv6Draw.DisplayMode
import Xv6Draw.Fs.FileLocks

/-!
# Device control

`fileread`, `filewrite` and `fileioctl` go through one table of device functions, indexed by the
major number of an inode. The first two look at the type of the file, at the type of the inode
and at the major number before they do. `fileioctl` looks at none of them: it follows the inode
pointer of any open file, which in a pipe is null or left over from an earlier use of the
structure, and takes the number it finds there as the index. What the device function returns is
dropped.

The abstract operation makes the checks of the other two. The two agree on a device whose
function accepts the request, and nowhere else.
-/

namespace Xv6Draw.Ioctl

open Fs FileLocks

variable {ι : Type}

/-- The part of an open `struct file` that the calls look at. The inode pointer of a file on an
inode is set; in a pipe it may be null, or what was there before. -/
structure OpenFile where
  type : FdType
  ip : Option (Fin ninode)
  type_ne : type ≠ .none
  ip_isSome : type = .inode → ip.isSome

/-- The message about an unknown request, by its numbers. -/
structure Message where
  major : BitVec 16
  minor : BitVec 16
  param : BitVec 32
  value : BitVec 32
  deriving DecidableEq

/-- What the call can reach. -/
structure State (ι : Type) where
  icache : Fin ninode → Inode
  devPayload : BitVec 64
  consoleGlobalColor : BitVec 32
  console : Console.State ι
  display : Vga.State
  /-- What `cprintf` has printed. -/
  printed : List Message

/-- Where a call of `fileioctl` leaves the program. -/
inductive Fault where
  /-- A null pointer is followed. -/
  | nullInode
  /-- `devsw` is read outside its bounds. -/
  | devswIndex
  deriving DecidableEq

/-- `consoleioctl`. -/
def consoleioctl (s : State ι) (param value : BitVec 32) : State ι × ℤ :=
  if param = 0 then ({ s with devPayload := value.signExtend 64 }, 0)
  else if param = 1 then ({ s with consoleGlobalColor := value }, 0)
  else if param = 2 then ({ s with console := Console.consoleioctl s.console value }, 0)
  else (s, -1)

/-- `displayioctl`. -/
def displayioctl (font : ℕ → Vga.Byte) (s : State ι) (param value : BitVec 32) : State ι × ℤ :=
  let (display, r) := Vga.displayioctl font s.display param value
  ({ s with display := display }, r)

/-- `devsw[major].ioctl` after `consoleinit` and `displayinit`, for an index inside the table. -/
def devswIoctl (font : ℕ → Vga.Byte) (major : ℤ) :
    Option (State ι → BitVec 32 → BitVec 32 → State ι × ℤ) :=
  if major = console then some consoleioctl
  else if major = display then some (displayioctl font)
  else none

/-- `fileioctl`. -/
def fileioctl (font : ℕ → Vga.Byte) (f : OpenFile) (s : State ι) (param value : BitVec 32) :
    Except Fault (State ι × ℤ) :=
  match f.ip with
  | none => .error .nullInode
  | some ip =>
    let d := (s.icache ip).d
    if d.major.toInt < 0 ∨ ndev ≤ d.major.toInt then .error .devswIndex
    else match devswIoctl font d.major.toInt with
      | some ioctl => .ok ((ioctl s param value).1, 0)
      | none => .ok ({ s with printed := s.printed ++ [⟨d.major, d.minor, param, value⟩] }, -1)

/-- The device behind an open file, by the checks of `fileread` and `filewrite`: a file on an
inode, a device inode, and a major number inside the table. -/
def device (f : OpenFile) (icache : Fin ninode → Inode) : Option ℤ :=
  match f.type, f.ip with
  | .inode, some ip =>
    if (icache ip).d.type = tDev ∧ 0 ≤ (icache ip).d.major.toInt ∧ (icache ip).d.major.toInt < ndev then
      some (icache ip).d.major.toInt
    else none
  | _, _ => none

/-- What a guarded call does: the function of the device, if there is one, with its result, and
nothing otherwise. -/
def guardedIoctl (font : ℕ → Vga.Byte) (f : OpenFile) (s : State ι) (param value : BitVec 32) :
    State ι × ℤ :=
  match (device f s.icache).bind (devswIoctl font) with
  | some ioctl => ioctl s param value
  | none => (s, -1)

/-- The requests that a device accepts. -/
def Accepts (major : ℤ) (param value : BitVec 32) : Prop :=
  (major = console ∧ (param = 0 ∨ param = 1 ∨ param = 2)) ∨
    (major = display ∧ ((param = 1 ∧ (value = 0x13 ∨ value = 0x3)) ∨ param = 2))

/-- The machine without what was printed. -/
def State.silent (s : State ι) : State ι := { s with printed := [] }

variable {major : ℤ}

/-- What it takes for a file to stand for a device. -/
theorem device_eq_some_iff {f : OpenFile} {icache : Fin ninode → Inode} :
    device f icache = some major ↔ ∃ ip, f.type = .inode ∧ f.ip = some ip ∧
      (icache ip).d.type = tDev ∧ (icache ip).d.major.toInt = major ∧ 0 ≤ major ∧ major < ndev := by
  unfold device
  constructor
  · intro h
    split at h
    · rename_i ip htype hip
      split_ifs at h with hguard
      cases h
      exact ⟨ip, htype, hip, hguard.1, rfl, hguard.2⟩
    · cases h
  · rintro ⟨ip, htype, hip, hdev, rfl, hrange⟩
    simp only [htype, hip]
    exact if_pos ⟨hdev, hrange⟩

/-! ### The table -/

variable {ioctl : State ι → BitVec 32 → BitVec 32 → State ι × ℤ}

/-- A function of the table returns 0 when it accepts the request, and -1 otherwise. -/
theorem result_of_devswIoctl {font : ℕ → Vga.Byte} (h : devswIoctl font major = some ioctl)
    (s : State ι) (param value : BitVec 32) :
    ((ioctl s param value).2 = 0 ↔ Accepts major param value) ∧
      (ioctl s param value).1.printed = s.printed := by
  unfold devswIoctl at h
  split_ifs at h with hconsole hdisplay
  · cases h
    unfold consoleioctl Accepts
    split_ifs <;> simp_all
  · cases h
    refine ⟨?_, rfl⟩
    have haccepts : Accepts major param value ↔
        (param = 1 ∧ (value = 0x13 ∨ value = 0x3)) ∨ param = 2 := by
      unfold Accepts
      tauto
    rw [haccepts]
    simp only [displayioctl, Vga.displayioctl]
    split_ifs <;> simp_all

/-- The table has a function exactly for the console and the display. -/
theorem devswIoctl_eq_none_iff {font : ℕ → Vga.Byte} :
    (devswIoctl font major : Option (State ι → BitVec 32 → BitVec 32 → State ι × ℤ)) = none ↔
      major ≠ console ∧ major ≠ display := by
  unfold devswIoctl
  split_ifs <;> simp_all

section

variable {font : ℕ → Vga.Byte} {f : OpenFile} {s : State ι} {ip : Fin ninode}

/-- `fileioctl` on an inode with a number of the table. -/
theorem fileioctl_of_range (hip : f.ip = some ip)
    (hrange : 0 ≤ (s.icache ip).d.major.toInt ∧ (s.icache ip).d.major.toInt < ndev)
    (param value : BitVec 32) :
    fileioctl font f s param value = match devswIoctl font (s.icache ip).d.major.toInt with
      | some ioctl => .ok ((ioctl s param value).1, 0)
      | none => .ok ({ s with printed := s.printed ++
          [⟨(s.icache ip).d.major, (s.icache ip).d.minor, param, value⟩] }, -1) := by
  simp only [fileioctl, hip]
  rw [if_neg (by omega)]

/-- Where `fileioctl` returns at all, it has found an inode with a number of the table. -/
theorem range_of_fileioctl {param value : BitVec 32} {r : State ι × ℤ}
    (h : fileioctl font f s param value = .ok r) :
    ∃ ip, f.ip = some ip ∧ 0 ≤ (s.icache ip).d.major.toInt ∧
      (s.icache ip).d.major.toInt < ndev := by
  unfold fileioctl at h
  cases hip : f.ip with
  | none => simp [hip] at h
  | some ip =>
    simp only [hip] at h
    split_ifs at h with hout
    exact ⟨ip, rfl, by omega, by omega⟩

/-- A file whose device, if any, has no function for requests. -/
theorem guardedIoctl_of_none {param value : BitVec 32}
    (h : ∀ major, device f s.icache = some major → major ≠ console ∧ major ≠ display) :
    guardedIoctl font f s param value = (s, -1) := by
  have hnone : (device f s.icache).bind (devswIoctl font : ℤ → Option
      (State ι → BitVec 32 → BitVec 32 → State ι × ℤ)) = none := by
    cases hdevice : device f s.icache with
    | none => rfl
    | some major => exact devswIoctl_eq_none_iff.mpr (h major hdevice)
  rw [guardedIoctl, hnone]

theorem guardedIoctl_of_some
    (hdevice : device f s.icache = some major) (hioctl : devswIoctl font major = some ioctl)
    (param value : BitVec 32) : guardedIoctl font f s param value = ioctl s param value := by
  rw [guardedIoctl, hdevice, Option.bind_some, hioctl]

end

/-- The device behind the file has a function that accepts the request. -/
def Served (f : OpenFile) (s : State ι) (param value : BitVec 32) : Prop :=
  ∃ major, device f s.icache = some major ∧ Accepts major param value

/-- The inode pointer of the file leads to a number of the table without a function. -/
def Unknown (f : OpenFile) (s : State ι) : Prop :=
  ∃ ip, f.ip = some ip ∧ 0 ≤ (s.icache ip).d.major.toInt ∧ (s.icache ip).d.major.toInt < ndev ∧
    (s.icache ip).d.major.toInt ≠ console ∧ (s.icache ip).d.major.toInt ≠ display

section

variable {f : OpenFile} {s : State ι} {ip : Fin ninode} {param value : BitVec 32}

/-- Only the number behind the inode pointer can be the device. -/
theorem device_eq_of_ip (hip : f.ip = some ip) (h : device f s.icache = some major) :
    major = (s.icache ip).d.major.toInt := by
  obtain ⟨ip', -, hsome, -, rfl, -⟩ := device_eq_some_iff.mp h
  rw [hip] at hsome
  cases hsome
  rfl

/-- A request is served by the device of the inode pointer. -/
theorem served_iff (hip : f.ip = some ip) : Served f s param value ↔
    device f s.icache = some (s.icache ip).d.major.toInt ∧
      Accepts (s.icache ip).d.major.toInt param value := by
  constructor
  · rintro ⟨major, hdevice, haccepts⟩
    obtain rfl := device_eq_of_ip hip hdevice
    exact ⟨hdevice, haccepts⟩
  · rintro ⟨hdevice, haccepts⟩
    exact ⟨_, hdevice, haccepts⟩

/-- A number without a function is that of the inode pointer. -/
theorem unknown_iff (hip : f.ip = some ip) : Unknown f s ↔
    0 ≤ (s.icache ip).d.major.toInt ∧ (s.icache ip).d.major.toInt < ndev ∧
      (s.icache ip).d.major.toInt ≠ console ∧ (s.icache ip).d.major.toInt ≠ display := by
  constructor
  · rintro ⟨ip', hsome, h⟩
    rw [hip] at hsome
    cases hsome
    exact h
  · intro h
    exact ⟨ip, hip, h⟩

/-- Without an inode, or with a number outside the table, nothing is served. -/
theorem range_of_served_or_unknown (h : Served f s param value ∨ Unknown f s) :
    ∃ ip, f.ip = some ip ∧ 0 ≤ (s.icache ip).d.major.toInt ∧
      (s.icache ip).d.major.toInt < ndev := by
  rcases h with ⟨major, hdevice, -⟩ | ⟨ip, hip, hlow, hhigh, -⟩
  · obtain ⟨ip, -, hip, -, rfl, hrange⟩ := device_eq_some_iff.mp hdevice
    exact ⟨ip, hip, hrange⟩
  · exact ⟨ip, hip, hlow, hhigh⟩

end

/-- **Device control.** `fileioctl` does what the checks of `fileread` and `filewrite` ask for if
and only if the file is a device whose function accepts the request. Apart from the message that
it prints, it also does so where the inode pointer leads to a number of the table without a
function. -/
theorem fileioctl_guards_iff (font : ℕ → Vga.Byte) (f : OpenFile) (s : State ι)
    (param value : BitVec 32) :
    (fileioctl font f s param value = .ok (guardedIoctl font f s param value) ↔
      Served f s param value) ∧ ((fileioctl font f s param value).map (Prod.map State.silent id) =
        .ok (Prod.map State.silent id (guardedIoctl font f s param value)) ↔
      Served f s param value ∨ Unknown f s) := by
  by_cases hfound : ∃ ip, f.ip = some ip ∧ 0 ≤ (s.icache ip).d.major.toInt ∧
      (s.icache ip).d.major.toInt < ndev
  · obtain ⟨ip, hip, hrange⟩ := hfound
    rw [fileioctl_of_range hip hrange, served_iff hip, unknown_iff hip]
    cases hioctl : (devswIoctl font (s.icache ip).d.major.toInt : Option
        (State ι → BitVec 32 → BitVec 32 → State ι × ℤ)) with
    | none =>
      -- the message is printed, and nothing else happens
      have hother := devswIoctl_eq_none_iff.mp hioctl
      have haccepts : ¬ Accepts (s.icache ip).d.major.toInt param value := by
        unfold Accepts
        tauto
      rw [guardedIoctl_of_none fun major hdevice => device_eq_of_ip hip hdevice ▸ hother]
      refine ⟨iff_of_false ?_ fun h => haccepts h.2,
        iff_of_true rfl (.inr ⟨hrange.1, hrange.2, hother⟩)⟩
      intro h
      have hprinted := congrArg State.printed (Prod.ext_iff.mp (Except.ok.inj h)).1
      simp at hprinted
    | some ioctl =>
      obtain ⟨hresult, -⟩ := result_of_devswIoctl hioctl s param value
      have hknown : ¬ ((s.icache ip).d.major.toInt ≠ console ∧ (s.icache ip).d.major.toInt ≠ display) := by
        intro hother
        rw [devswIoctl_eq_none_iff.mpr hother] at hioctl
        cases hioctl
      have hnotunknown : ¬ (0 ≤ (s.icache ip).d.major.toInt ∧ (s.icache ip).d.major.toInt < ndev ∧
          (s.icache ip).d.major.toInt ≠ console ∧ (s.icache ip).d.major.toInt ≠ display) :=
        fun h => hknown h.2.2
      by_cases hdevice : device f s.icache = some (s.icache ip).d.major.toInt
      · -- the function has run, and its result is the only difference
        rw [guardedIoctl_of_some hdevice hioctl, and_iff_right hdevice, or_iff_left hnotunknown, ← hresult]
        simp only
        generalize ioctl s param value = result
        obtain ⟨t, r⟩ := result
        constructor <;> simp [Except.map, Prod.map, eq_comm]
      · -- a function has run that no device asks for
        have hnone : ∀ major, device f s.icache = some major → major ≠ console ∧ major ≠ display :=
          fun major h => absurd (device_eq_of_ip hip h ▸ h) hdevice
        rw [guardedIoctl_of_none hnone]
        refine ⟨iff_of_false ?_ fun h => hdevice h.1, iff_of_false ?_ ?_⟩
        · intro h
          cases (Prod.ext_iff.mp (Except.ok.inj h)).2
        · intro h
          cases (Prod.ext_iff.mp (Except.ok.inj h)).2
        · rintro (h | h)
          · exact hdevice h.1
          · exact hnotunknown h
  · have hserved : ¬ (Served f s param value ∨ Unknown f s) :=
      fun h => hfound (range_of_served_or_unknown h)
    have hfault : ∀ r, fileioctl font f s param value ≠ .ok r :=
      fun r h => hfound (range_of_fileioctl h)
    refine ⟨iff_of_false (hfault _) fun h => hserved (.inl h), iff_of_false ?_ hserved⟩
    cases hcall : fileioctl font f s param value with
    | ok r => exact absurd hcall (hfault r)
    | error e => exact nofun

/-- A machine after boot in which every inode is a device with the given number. -/
def machineOf (major : BitVec 16) : State Unit where
  icache _ := ⟨1, 1, false, true, { Dinode.zero with type := tDev, major := major }⟩
  devPayload := 0
  consoleGlobalColor := 7
  console := Console.boot Unit
  display := Vga.bootState
  printed := []

/-- A file on an inode. -/
def inodeFile : OpenFile := ⟨.inode, some 0, nofun, fun _ => rfl⟩

/-- An end of a pipe, in a structure that held no inode before. -/
def freshPipe : OpenFile := ⟨.pipe, none, nofun, nofun⟩

/-- The display rejects an unknown mode, and the caller is told that all is well. A device node
with a number outside the table, and a pipe, lead out of the table and through a null pointer. -/
theorem fileioctl_is_not_guarded : (fileioctl 0 inodeFile (machineOf 2) 1 5 = .ok (machineOf 2, 0) ∧
      guardedIoctl 0 inodeFile (machineOf 2) 1 5 = (machineOf 2, -1)) ∧
    (fileioctl 0 inodeFile (machineOf 10) 1 5 = .error .devswIndex ∧
      guardedIoctl 0 inodeFile (machineOf 10) 1 5 = (machineOf 10, -1)) ∧
    (fileioctl 0 freshPipe (machineOf 2) 2 1 = .error .nullInode ∧
      guardedIoctl 0 freshPipe (machineOf 2) 2 1 = (machineOf 2, -1)) :=
  ⟨⟨rfl, rfl⟩, ⟨rfl, rfl⟩, ⟨rfl, rfl⟩⟩

end Xv6Draw.Ioctl
