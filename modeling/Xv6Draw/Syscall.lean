import Mathlib.Data.BitVec

/-!
# Fetching system-call arguments

The kernel reads system-call arguments from the trap frame and checks pointers
against the size of the calling process. This file embeds the fetch functions of
`syscall.c` with their fixed-width casts, and the five system calls that hand a
pointer checked by `argptr` on to the rest of the kernel. The user memory of a
process is `[PGSIZE, sz)`, because the first page is never mapped.
-/

namespace Xv6Draw

/-- `PGSIZE`, the number of bytes in a page. -/
def pgsize : ℕ := 4096

/-- `sizeof(struct stat)`: the five fields with the padding after both shorts. -/
def sizeofStat : ℕ := 20

/-- `AI_PROMPT_MAX`, the longest prompt that `aiquery` sends. -/
def aiPromptMax : ℕ := 512

/-- The registers of `struct trapframe` that carry system-call arguments. -/
structure Trapframe where
  /-- Argument 0. -/
  rdi : BitVec 64
  /-- Argument 1. -/
  rsi : BitVec 64
  /-- Argument 2. -/
  rdx : BitVec 64
  /-- Argument 3. -/
  r10 : BitVec 64
  /-- Argument 4. -/
  r8 : BitVec 64
  /-- Argument 5. -/
  r9 : BitVec 64

/-- The part of `struct proc` that argument fetching reads. -/
structure Proc where
  /-- Size of the process memory in bytes. -/
  sz : BitVec 64
  /-- Trap frame of the current system call. -/
  tf : Trapframe
  /-- Whether a slot of the descriptor table `ofile[NOFILE]` is in use. -/
  ofile : Fin 16 → Bool
  mem : ℕ → ℕ

/-- `fetcharg`. The callers pass constant indices below six, so the `panic`
after the switch is outside the index type. -/
def fetcharg (proc : Proc) : Fin 6 → BitVec 64
  | 0 => proc.tf.rdi
  | 1 => proc.tf.rsi
  | 2 => proc.tf.rdx
  | 3 => proc.tf.r10
  | 4 => proc.tf.r8
  | 5 => proc.tf.r9

/-- `argint`: the assignment to an `int` keeps the low 32 bits. -/
def argint (proc : Proc) (n : Fin 6) : BitVec 32 := (fetcharg proc n).setWidth 32

/-- `argaddr`: the whole 64-bit register. -/
def argaddr (proc : Proc) (n : Fin 6) : BitVec 64 := fetcharg proc n

/-- The condition under which `argptr` returns -1. Both uses of the pointer
are cast to `uint`; the sum with the `int` size is a 32-bit sum, and only the
comparison with `sz` is made over 64 bits. -/
def ArgptrRejects (proc : Proc) (i : BitVec 64) (size : BitVec 32) : Prop :=
  size.toInt < 0 ∨ proc.sz ≤ (i.setWidth 32).setWidth 64 ∨
    proc.sz < (i.setWidth 32 + size).setWidth 64

instance (proc : Proc) (i : BitVec 64) (size : BitVec 32) :
    Decidable (ArgptrRejects proc i size) :=
  inferInstanceAs (Decidable (_ ∨ _))

/-- `argptr`: the pointer that is stored through `pp`, or `none` for -1. -/
def argptr (proc : Proc) (n : Fin 6) (size : BitVec 32) : Option (BitVec 64) :=
  if ArgptrRejects proc (argaddr proc n) size then none else some (argaddr proc n)

/-- The number of bytes the scan of `fetchstr` reads from `addr` on, and
whether it ended at a NUL: the loop stops at the first NUL below `sz`. -/
def scanString (proc : Proc) (addr : BitVec 64) : ℕ × Bool :=
  match (List.range (proc.sz.toNat - addr.toNat)).find? (fun k => proc.mem (addr.toNat + k) == 0) with
  | some k => (k + 1, true)
  | none => (proc.sz.toNat - addr.toNat, false)

/-- `fetchstr`: the length of the string at `addr`, converted to `int`, or
`none` for -1. -/
def fetchstr (proc : Proc) (addr : BitVec 64) : Option (BitVec 32) :=
  if addr.toNat < pgsize ∨ proc.sz ≤ addr then none
  else if (scanString proc addr).2 then some (BitVec.ofNat 32 ((scanString proc addr).1 - 1))
  else none

/-- The address range that `fetchstr` reads, as a base and a length. -/
def fetchstrRange (proc : Proc) (addr : BitVec 64) : ℕ × ℕ :=
  if addr.toNat < pgsize ∨ proc.sz ≤ addr then (addr.toNat, 0)
  else (addr.toNat, (scanString proc addr).1)

/-- The address `argstr` passes to `fetchstr`: an `int` widened to `addr_t`. -/
def argstrAddr (proc : Proc) (n : Fin 6) : BitVec 64 := (argint proc n).signExtend 64

/-- `argstr`. -/
def argstr (proc : Proc) (n : Fin 6) : Option (BitVec 32) := fetchstr proc (argstrAddr proc n)

/-- Whether `argfd(0, ...)` finds an open file. -/
def argfdOk (proc : Proc) : Bool :=
  if h : 0 ≤ (argint proc 0).toInt ∧ (argint proc 0).toInt < 16 then
    proc.ofile ⟨(argint proc 0).toInt.toNat, by omega⟩
  else false

/-- The system calls that check a user pointer with `argptr`. -/
inductive PtrCall where
  | read
  | write
  | fstat
  | pipe
  | aiQuery
  deriving DecidableEq

/-- The index of the pointer argument. -/
def PtrCall.ptrIndex : PtrCall → Fin 6
  | .pipe => 0
  | _ => 1

/-- The size that the call passes to `argptr`. -/
def PtrCall.ptrSize (proc : Proc) : PtrCall → BitVec 32
  | .read | .write | .aiQuery => argint proc 2
  | .fstat => BitVec.ofNat 32 sizeofStat
  | .pipe => 8#32

/-- Whether the call goes past its checks other than `argptr` to the code that
uses the pointer: `argfd` for the descriptor calls, and for `sys_ai_query` the
prompt string together with the argument checks at the start of `aiquery`. -/
def PtrCall.usesPtr (proc : Proc) : PtrCall → Bool
  | .read | .write | .fstat => argfdOk proc
  | .pipe => true
  | .aiQuery =>
    match argstr proc 0 with
    | none => false
    | some promptlen => decide (0 ≤ promptlen.toInt ∧ promptlen.toInt ≤ aiPromptMax ∧
        0 < (argint proc 2).toInt)

/-- The pointer a call goes on with. The callers test `argptr(...) < 0`, but
`argptr` returns the unsigned type `addr_t`, so the test is never true: after a
rejection the call continues with its uninitialised local `junk`. -/
def PtrCall.ptr (proc : Proc) (call : PtrCall) (junk : BitVec 64) : BitVec 64 :=
  (argptr proc call.ptrIndex (call.ptrSize proc)).getD junk

/-- The user address ranges that a call hands on. `readi` and `displaywrite`
take the byte count as `uint`, so a count counts by its unsigned value. -/
def PtrCall.ranges (proc : Proc) (junk : BitVec 64) (call : PtrCall) : List (ℕ × ℕ) :=
  (if call = .aiQuery then [fetchstrRange proc (argstrAddr proc 0)] else []) ++
    if call.usesPtr proc then [((call.ptr proc junk).toNat, (call.ptrSize proc).toNat)] else []

/-- A range of full 64-bit addresses lies inside the user memory `[PGSIZE, sz)`. -/
def InUser (proc : Proc) (range : ℕ × ℕ) : Prop :=
  ∀ a, range.1 ≤ a → a < range.1 + range.2 → pgsize ≤ a ∧ a < proc.sz.toNat

/-- The casts of `argptr` lose nothing for this pointer: it is above the
unmapped first page, and the true end of the range either fits in 32 bits or is
still below the size of a process larger than that. -/
def CastsExact (proc : Proc) (i : BitVec 64) (size : BitVec 32) : Prop :=
  pgsize ≤ i.toNat ∧ (i.toNat + size.toNat < 2 ^ 32 ∨ i.toNat + size.toNat ≤ proc.sz.toNat)

theorem toNat_pos_of_ne_zero {w : ℕ} {x : BitVec w} (hx : x ≠ 0) : 0 < x.toNat := by
  rcases Nat.eq_zero_or_pos x.toNat with hzero | hpos
  · exact absurd (BitVec.eq_of_toNat_eq (by simpa using hzero)) hx
  · exact hpos

variable {proc : Proc} {size : BitVec 32}

theorem argptr_of_rejects {n : Fin 6}
    (h : ArgptrRejects proc (argaddr proc n) size) : argptr proc n size = none := if_pos h

theorem argptr_of_accepts {n : Fin 6} (h : ¬ ArgptrRejects proc (argaddr proc n) size) :
    argptr proc n size = some (argaddr proc n) := if_neg h

/-- A nonempty range is inside the user memory exactly when both ends are. -/
theorem inUser_iff {base len : ℕ} (hlen : 0 < len) :
    InUser proc (base, len) ↔ pgsize ≤ base ∧ base + len ≤ proc.sz.toNat := by
  constructor
  · intro h
    have hfirst := h base le_rfl (by simpa using hlen)
    have hlast := h (base + len - 1) (by simp only; omega) (by simp only; omega)
    omega
  · rintro ⟨hlow, hhigh⟩ a hbase ha
    omega

theorem inUser_zero (proc : Proc) (base : ℕ) : InUser proc (base, 0) := by
  intro a hbase ha
  omega

/-- The check of `argptr`, with its casts written out over the naturals. -/
theorem argptrRejects_iff (proc : Proc) (i : BitVec 64) (size : BitVec 32) :
    ArgptrRejects proc i size ↔ 2 ^ 31 ≤ size.toNat ∨ proc.sz.toNat ≤ i.toNat % 2 ^ 32 ∨
      proc.sz.toNat < (i.toNat % 2 ^ 32 + size.toNat) % 2 ^ 32 := by
  have hsmall : i.toNat % 2 ^ 32 % 2 ^ 64 = i.toNat % 2 ^ 32 := Nat.mod_eq_of_lt (by omega)
  have hsum : (i.toNat % 2 ^ 32 + size.toNat) % 2 ^ 32 % 2 ^ 64 =
      (i.toNat % 2 ^ 32 + size.toNat) % 2 ^ 32 := Nat.mod_eq_of_lt (by omega)
  have hneg : size.toInt < 0 ↔ 2 ^ 31 ≤ size.toNat := by
    rw [BitVec.toInt_neg_iff]
    omega
  unfold ArgptrRejects
  rw [hneg, BitVec.le_def, BitVec.lt_def]
  simp only [BitVec.toNat_setWidth, BitVec.toNat_add, hsmall, hsum]

/-- An accepted, nonempty range is inside the user memory exactly when the
casts of the check were exact. -/
theorem inUser_iff_castsExact {i : BitVec 64}
    (haccept : ¬ ArgptrRejects proc i size) (hsize : 0 < size.toNat) :
    InUser proc (i.toNat, size.toNat) ↔ CastsExact proc i size := by
  rw [argptrRejects_iff] at haccept
  rw [inUser_iff hsize]
  unfold CastsExact
  constructor
  · rintro ⟨hlow, hhigh⟩
    exact ⟨hlow, .inr hhigh⟩
  · rintro ⟨hlow, hfits | hhigh⟩
    · -- without truncation the low half of the pointer is the pointer
      omega
    · exact ⟨hlow, hhigh⟩

/-- The scan of `fetchstr` never leaves the user memory. -/
theorem fetchstrRange_inUser (proc : Proc) (addr : BitVec 64) :
    InUser proc (fetchstrRange proc addr) := by
  unfold fetchstrRange
  split_ifs with hreject
  · exact inUser_zero proc _
  · rw [not_or, BitVec.not_le] at hreject
    obtain ⟨hpage, hsz⟩ := hreject
    have hread : (scanString proc addr).1 ≤ proc.sz.toNat - addr.toNat := by
      unfold scanString
      split
      · next k hk =>
        have hmem := List.mem_range.mp (List.mem_of_find?_eq_some hk)
        exact hmem
      · exact le_rfl
    intro a hbase ha
    omega

/-- A call's ranges are inside the user memory, whatever its uninitialised
pointer holds, exactly when the pointer is unused, counts no bytes, or passes
the check of `argptr` with exact casts. -/
theorem ranges_inUser_iff (proc : Proc) (call : PtrCall) :
    (∀ junk, ∀ range ∈ call.ranges proc junk, InUser proc range) ↔
      call.usesPtr proc = false ∨ call.ptrSize proc = 0 ∨
        (¬ ArgptrRejects proc (argaddr proc call.ptrIndex) (call.ptrSize proc) ∧
          CastsExact proc (argaddr proc call.ptrIndex) (call.ptrSize proc)) := by
  have hprompt : ∀ range ∈ (if call = .aiQuery then [fetchstrRange proc (argstrAddr proc 0)]
      else []), InUser proc range := by
    intro range hrange
    split_ifs at hrange with hcall
    · rw [List.mem_singleton] at hrange
      rw [hrange]
      exact fetchstrRange_inUser proc _
    · simp at hrange
  cases huses : call.usesPtr proc with
  | false =>
    simp only [PtrCall.ranges, huses, Bool.false_eq_true, if_false, List.append_nil, true_or, iff_true]
    exact fun _ => hprompt
  | true =>
    have hsplit : (∀ junk, ∀ range ∈ call.ranges proc junk, InUser proc range) ↔
        ∀ junk, InUser proc ((call.ptr proc junk).toNat, (call.ptrSize proc).toNat) := by
      simp only [PtrCall.ranges, huses, if_true, List.mem_append, List.mem_singleton, or_imp,
        forall_and, forall_eq]
      exact ⟨fun h => h.2, fun h => ⟨fun _ => hprompt, h⟩⟩
    rw [hsplit]
    simp only [Bool.true_eq_false, false_or]
    by_cases hzero : call.ptrSize proc = 0
    · simp only [hzero, true_or, iff_true, BitVec.ofNat_eq_ofNat, BitVec.toNat_ofNat, Nat.zero_mod]
      exact fun junk => inUser_zero proc _
    · have hpos := toNat_pos_of_ne_zero hzero
      by_cases hreject : ArgptrRejects proc (argaddr proc call.ptrIndex) (call.ptrSize proc)
      · -- the rejection goes unnoticed, and the uninitialised pointer may be null
        simp only [PtrCall.ptr, argptr_of_rejects hreject, Option.getD_none, hreject,
          not_true_eq_false, false_and, hzero, or_self, iff_false]
        intro h
        have hnull := (inUser_iff hpos).mp (h 0)
        simp [pgsize] at hnull
      · simp only [PtrCall.ptr, argptr_of_accepts hreject, Option.getD_some, hreject,
          not_false_eq_true, true_and, hzero, false_or, forall_const]
        exact inUser_iff_castsExact hreject hpos

/-- The exact reach of the pointer check. A pointer that `argptr` accepts
covers only user memory exactly when the size is zero or the casts are exact,
and the system calls stay inside user memory exactly when, in addition, their
pointer is not rejected. -/
theorem argptr_inUser_iff (proc : Proc) (n : Fin 6) (size : BitVec 32) (call : PtrCall) :
    ((∀ p, argptr proc n size = some p → InUser proc (p.toNat, size.toNat)) ↔
      ArgptrRejects proc (argaddr proc n) size ∨ size = 0 ∨ CastsExact proc (argaddr proc n) size) ∧
    ((∀ junk, ∀ range ∈ call.ranges proc junk, InUser proc range) ↔
      call.usesPtr proc = false ∨ call.ptrSize proc = 0 ∨
        (¬ ArgptrRejects proc (argaddr proc call.ptrIndex) (call.ptrSize proc) ∧
          CastsExact proc (argaddr proc call.ptrIndex) (call.ptrSize proc))) := by
  refine ⟨?_, ranges_inUser_iff proc call⟩
  by_cases hreject : ArgptrRejects proc (argaddr proc n) size
  · simp [argptr_of_rejects hreject, hreject]
  · simp only [argptr_of_accepts hreject, Option.some.injEq, forall_eq', hreject, false_or]
    by_cases hzero : size = 0
    · simp only [hzero, true_or, iff_true, BitVec.ofNat_eq_ofNat, BitVec.toNat_ofNat, Nat.zero_mod]
      exact inUser_zero proc _
    · simp only [hzero, false_or]
      exact inUser_iff_castsExact hreject (toNat_pos_of_ne_zero hzero)

/-- A two-page process with descriptor 0 open that passes `rsi` as its second
and `rdx` as its third argument. -/
def twoPageProc (rsi rdx : BitVec 64) : Proc where
  sz := 0x2000
  tf := ⟨0, rsi, rdx, 0, 0, 0⟩
  ofile := fun fd => fd == 0
  mem := fun _ => 0

/-- `read(0, KERNBASE + 0x1000, 16)` passes the check, and 16 bytes of kernel
memory are handed to the file layer. The rejected `read(0, sbrk(0) - 1, -1)` of
`argptest` is no better: it goes on with the uninitialised pointer. -/
theorem argptr_accepts_kernel_address :
    argptr (twoPageProc 0xFFFF800000001000 16) 1 16 = some 0xFFFF800000001000 ∧
      ¬ InUser (twoPageProc 0xFFFF800000001000 16) (0xFFFF800000001000, 16) ∧
      (0xFFFF800000001000, 16) ∈ PtrCall.read.ranges (twoPageProc 0xFFFF800000001000 16) 0 ∧
      (0xFFFF800000100000, 4294967295) ∈
        PtrCall.read.ranges (twoPageProc 0x1FFF 0xFFFFFFFF) 0xFFFF800000100000 := by
  refine ⟨by decide, ?_, by decide, by decide⟩
  rw [inUser_iff (by decide)]
  decide

end Xv6Draw
