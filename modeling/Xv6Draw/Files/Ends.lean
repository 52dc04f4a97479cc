import Xv6Draw.Files.References
import Xv6Draw.Lib.Transition

/-!
# The ends of pipes

An end of a pipe is open while there is a file for it, or while the call that has closed
the last descriptor is on its way to `pipeclose`. The page of a pipe is freed once,
when both ends are closed.
-/

namespace Xv6Draw.Files

open Function List Option Tally

variable {s t : State} {p q : Fin nproc} {f g : Fin nfile}

/-- Is an end of a pipe open? -/
def Pipe.isOpen (pipe : Pipe) (writable : Bool) : Bool :=
  if writable then pipe.writeopen else pipe.readopen

/-- A file for an end of a pipe. -/
def File.IsEnd (ff : File) (i : ℕ) (writable : Bool) : Prop :=
  0 < ff.ref ∧ ff.type = .pipe ∧ ff.pipe = i ∧ ff.writable = writable

instance (ff : File) (i : ℕ) (writable : Bool) : Decidable (ff.IsEnd i writable) :=
  inferInstanceAs (Decidable (_ ∧ _))

/-- A call that is about to close an end of a pipe. -/
def Code.Closes (i : ℕ) (writable : Bool) : Code → Prop
  | .finish ff _ => ff.type = .pipe ∧ ff.pipe = i ∧ ff.writable = writable
  | _ => False

instance (i : ℕ) (writable : Bool) : ∀ c : Code, Decidable (c.Closes i writable)
  | .finish .. => inferInstanceAs (Decidable (_ ∧ _))
  | .user | .openAlloc .. | .openFile .. | .dup .. | .fork .. | .forkDup .. | .pipeAlloc _
  | .pipeKalloc .. | .pipeFd0 .. | .pipeFd1 .. | .close .. | .kfree .. | .exit _ | .exitClear _ =>
    isFalse id

/-- A call that is about to free the page of a pipe. -/
def Code.Frees (i : ℕ) : Code → Prop
  | .kfree j _ => j = i
  | _ => False

instance (i : ℕ) : ∀ c : Code, Decidable (c.Frees i)
  | .kfree .. => inferInstanceAs (Decidable (_ = _))
  | .user | .openAlloc .. | .openFile .. | .dup .. | .fork .. | .forkDup .. | .pipeAlloc _
  | .pipeKalloc .. | .pipeFd0 .. | .pipeFd1 .. | .close .. | .finish .. | .exit _
  | .exitClear _ => isFalse id

/-- The files that a call has allocated and not yet set up. -/
def Code.fresh : Code → List (Fin nfile)
  | .openAlloc f _ => [f]
  | .openFile f _ _ => [f]
  | .pipeAlloc f0 => [f0]
  | .pipeKalloc f0 f1 => [f0, f1]
  | _ => []

/-- One for a file for an end of a pipe. -/
def fileEnd (i : ℕ) (writable : Bool) (ff : File) : ℕ := if ff.IsEnd i writable then 1 else 0

/-- One for a call that is about to close an end of a pipe. -/
def codeEnd (i : ℕ) (writable : Bool) (c : Code) : ℕ := if c.Closes i writable then 1 else 0

/-- One for a call that is about to free the page of a pipe. -/
def codeFree (i : ℕ) (c : Code) : ℕ := if c.Frees i then 1 else 0

/-- What the processes do. -/
def State.codes (s : State) (p : Fin nproc) : Code := (s.proc p).code

/-- One for a pipe with an open end. -/
def Pipe.live (pipe : Pipe) : ℕ := (pipe.readopen || pipe.writeopen).toNat

/-- One for a pipe that was allocated. -/
def allocated (npipe i : ℕ) : ℕ := if i < npipe then 1 else 0

/-- The account of the ends of pipes. -/
structure Ends (s : State) : Prop where
  /-- A file that is not in use has no type. -/
  free : ∀ f, (s.file f).ref = 0 → (s.file f).type = .none
  /-- A file that is not set up has one reference, and no type. -/
  fresh : ∀ p f, f ∈ (s.codes p).fresh → (s.file f).ref = 1 ∧ (s.file f).type = .none
  /-- An open end has one file, or one call that is about to close it. -/
  ends : ∀ i writable, tally (fileEnd i writable) s.file + tally (codeEnd i writable) s.codes =
    ((s.pipe i).isOpen writable).toNat
  /-- A pipe has an open end, or is about to be freed, or was freed once. -/
  pages : ∀ i, (s.pipe i).freed + (s.pipe i).live + tally (codeFree i) s.codes =
    allocated s.npipe i

/-! ### What the processes do -/

theorem codes_setProc (s : State) (p : Fin nproc) (pr : Process) :
    (s.setProc p pr).codes = update s.codes p pr.code := by
  funext q
  simp only [State.codes, State.setProc, update_apply]
  split_ifs <;> rfl

theorem codes_goto (s : State) (p : Fin nproc) (c : Code) :
    (s.goto p c).codes = update s.codes p c := codes_setProc ..

theorem codes_ret (s : State) (p : Fin nproc) (value : ℤ) :
    (s.ret p value).codes = update s.codes p .user := codes_setProc ..

theorem codes_put (s : State) (p : Fin nproc) (fd : Fin nofile) (v : Option (Fin nfile)) (c : Code) :
    (s.put p fd v c).codes = update s.codes p c := codes_setProc ..

theorem codes_setProc_setProc {np : Fin nproc} {cr : Process} (h : cr.code = (s.proc np).code)
    (pr : Process) : ((s.setProc np cr).setProc p pr).codes = update s.codes p pr.code := by
  have hsame : update s.codes np (s.proc np).code = s.codes := update_eq_self ..
  rw [codes_setProc, codes_setProc, h, hsame]

/-- A part of a call that is not about to close an end of a pipe, or to free one. -/
def Code.Idle : Code → Prop
  | .finish ff _ => ff.type ≠ .pipe
  | .kfree .. => False
  | _ => True

variable {c c' : Code} {fd : Fin nofile} {ff : File} {next : Next} {i : ℕ}

@[simp] theorem Code.Idle.codeEnd (h : c.Idle) (i : ℕ) (writable : Bool) :
    codeEnd i writable c = 0 := by
  cases c with
  | finish ff next => exact if_neg fun hc => h hc.1
  | _ => rfl

@[simp] theorem Code.Idle.codeFree (h : c.Idle) (i : ℕ) : codeFree i c = 0 := by
  cases c with
  | kfree => exact h.elim
  | _ => rfl

theorem Next.after_idle (next : Next) : next.after.Idle := by
  cases next <;> trivial

theorem Next.after_fresh (next : Next) : next.after.fresh = [] := by
  cases next <;> rfl

/-! ### Files that are not set up -/

/-- A call is charged for a file that it has not set up. -/
theorem Refs.charge_fresh (h : Refs s) (hf : f ∈ (s.codes p).fresh) : 0 < charge f (s.proc p) := by
  have hok := h.ok p
  unfold State.codes at hf
  cases hcode : (s.proc p).code with
  | openFile g fd omode =>
    rw [hcode] at hf hok
    obtain rfl : f = g := mem_singleton.mp hf
    exact charge_pos_of_slot (by rw [slot_of_spent (by rw [hcode]; rfl)]; exact hok)
  | openAlloc | pipeAlloc | pipeKalloc =>
    rw [hcode] at hf
    exact charge_pos_of_held (by rw [hcode]; exact hf)
  | user | dup | fork | forkDup | pipeFd0 | pipeFd1 | close | finish | kfree | exit | exitClear =>
    rw [hcode] at hf
    exact absurd hf not_mem_nil

section

variable (hr : Refs s) (h : Ends s)
include hr h

/-- No other process has a file that is not set up. -/
theorem Ends.fresh_other (hf : f ∈ (s.codes q).fresh) (hq : q ≠ p) :
    charge f (s.proc p) = 0 := by
  have hpair := add_le_tally (charge f) s.proc hq
  have hone := (h.fresh q f hf).1
  have hpos := hr.charge_fresh hf
  rw [hr.refs f] at hone
  omega

/-! ### Steps -/

/-- A step of one process that changes only files that it is charged for, or that are not in
use. -/
theorem Ends.move (hcode : (s.proc p).code = c) (hcodes : t.codes = update s.codes p c')
    (hfile : ∀ f, charge f (s.proc p) = 0 → 0 < (s.file f).ref → t.file f = s.file f)
    (hfree : ∀ f, (t.file f).ref = 0 → (t.file f).type = .none)
    (hfresh : ∀ f ∈ c'.fresh, (t.file f).ref = 1 ∧ (t.file f).type = .none)
    (hends : ∀ i writable, tally (fileEnd i writable) t.file + codeEnd i writable c' +
        ((s.pipe i).isOpen writable).toNat = tally (fileEnd i writable) s.file + codeEnd i writable c +
        ((t.pipe i).isOpen writable).toNat)
    (hpages : ∀ i, (t.pipe i).freed + (t.pipe i).live + codeFree i c' + allocated s.npipe i =
      (s.pipe i).freed + (s.pipe i).live + codeFree i c + allocated t.npipe i) : Ends t := by
  subst hcode
  refine ⟨hfree, ?_, ?_, ?_⟩
  · intro q f hf
    rw [hcodes, update_apply] at hf
    split_ifs at hf with hqp
    · exact hfresh f hf
    · have hold := h.fresh q f hf
      rw [hfile f (h.fresh_other hr hf hqp) (by omega)]
      exact hold
  · intro i writable
    have htally : _ + codeEnd i writable (s.proc p).code = _ :=
      tally_update (codeEnd i writable) s.codes p c'
    have hs := h.ends i writable
    have ht := hends i writable
    rw [hcodes]
    omega
  · intro i
    have htally : _ + codeFree i (s.proc p).code = _ := tally_update (codeFree i) s.codes p c'
    have hs := h.pages i
    have ht := hpages i
    rw [hcodes]
    omega

/-- A step between idle parts of a call, that leaves the files and the pipes alone. -/
theorem Ends.pass (hcode : (s.proc p).code = c)
    (hcodes : t.codes = update s.codes p c') (hfile : t.file = s.file)
    (hpipe : t.pipe = s.pipe) (hnpipe : t.npipe = s.npipe) (hfresh : c'.fresh ⊆ c.fresh)
    (hc : c.Idle) (hc' : c'.Idle) : Ends t := by
  refine h.move hr hcode hcodes (fun f _ _ => by rw [hfile]) (fun f => by rw [hfile]; exact h.free f)
    ?_ ?_ ?_
  · intro f hf
    rw [hfile]
    exact h.fresh p f (by rw [State.codes, hcode]; exact hfresh hf)
  · intro i writable
    rw [hfile, hpipe, hc.codeEnd, hc'.codeEnd]
  · intro i
    rw [hpipe, hnpipe, hc.codeFree, hc'.codeFree]

theorem Ends.goto (hcode : (s.proc p).code = c)
    (hfresh : c'.fresh ⊆ c.fresh) (hc : c.Idle) (hc' : c'.Idle) : Ends (s.goto p c') :=
  h.pass hr hcode (codes_goto ..) rfl rfl rfl hfresh hc hc'

theorem Ends.put {v : Option (Fin nfile)} (hcode : (s.proc p).code = c) (hfresh : c'.fresh ⊆ c.fresh)
    (hc : c.Idle) (hc' : c'.Idle) : Ends (s.put p fd v c') :=
  h.pass hr hcode (codes_put ..) rfl rfl rfl hfresh hc hc'

theorem Ends.fail (hready : s.Ready p) (value : ℤ) : Ends (s.ret p value) :=
  h.pass hr hready.2 (codes_ret ..) rfl rfl rfl nofun trivial trivial

/-- A step between idle parts of a call that changes one file, not as an end of a pipe. -/
theorem Ends.setFile (hcode : (s.proc p).code = c) (hcodes : t.codes = update s.codes p c')
    (hfile : t.file = update s.file f ff) (hpipe : t.pipe = s.pipe)
    (hnpipe : t.npipe = s.npipe) (hown : 0 < charge f (s.proc p) ∨ (s.file f).ref = 0)
    (hisEnd : ∀ i writable, ff.IsEnd i writable ↔ (s.file f).IsEnd i writable) (hfree : ff.ref ≠ 0)
    (hfresh : ∀ g ∈ c'.fresh, (g = f ∧ ff.ref = 1 ∧ ff.type = .none) ∨ (g ≠ f ∧ g ∈ c.fresh))
    (hc : c.Idle) (hc' : c'.Idle) : Ends t := by
  refine h.move hr hcode hcodes ?_ ?_ ?_ ?_ ?_
  · intro g hg hpos
    rw [hfile, update_of_ne]
    rintro rfl
    omega
  · intro g hg
    rw [hfile, update_apply] at hg ⊢
    split_ifs at hg ⊢
    · exact absurd hg hfree
    · exact h.free g hg
  · intro g hg
    rw [hfile, update_apply]
    obtain ⟨rfl, hff⟩ | ⟨hne, hold⟩ := hfresh g hg
    · rwa [if_pos rfl]
    · rw [if_neg hne]
      exact h.fresh p g (by rwa [State.codes, hcode])
  · intro i writable
    have htally : tally (fileEnd i writable) (update s.file f ff) =
        tally (fileEnd i writable) s.file := tally_update_of_eq (by simp only [fileEnd, hisEnd])
    rw [hfile, hpipe, hc.codeEnd, hc'.codeEnd, htally]
  · intro i
    rw [hpipe, hnpipe, hc.codeFree, hc'.codeFree]

/-- `filealloc`, for a call that has not set up the file. -/
theorem Ends.filealloc (hf : (s.file f).ref = 0)
    (hcode : (s.proc p).code = c) (hfresh : ∀ g ∈ c'.fresh, g = f ∨ g ∈ c.fresh) (hc : c.Idle)
    (hc' : c'.Idle) : Ends ((Files.filealloc s f).goto p c') := by
  refine h.setFile hr hcode (codes_goto ..) rfl rfl rfl (.inr hf) ?_ Nat.one_ne_zero ?_ hc hc'
  · intro i writable
    simp [File.IsEnd, h.free f hf]
  · intro g hg
    by_cases hgf : g = f
    · exact .inl ⟨hgf, rfl, h.free f hf⟩
    · exact .inr ⟨hgf, (hfresh g hg).resolve_left hgf⟩

/-- `filedup` by a process that is charged for the file. -/
theorem Ends.filedup (hf : 0 < charge f (s.proc p)) {pr : Process}
    (hcode : (s.proc p).code = c) (hfresh : pr.code.fresh = []) (hc : c.Idle)
    (hc' : pr.code.Idle) : Ends ((Files.filedup s f).setProc p pr) := by
  have hpos := hr.ref_pos hf
  unfold Files.filedup
  rw [if_neg (by omega)]
  refine h.setFile hr hcode (codes_setProc ..) rfl rfl rfl (.inl hf) ?_ (Nat.succ_ne_zero _) ?_ hc
    hc'
  · intro i writable
    simp [File.IsEnd, hpos]
  · rw [hfresh]
    exact nofun

theorem Ends.fileclose (hcode : (s.proc p).code = .close f next)
    : Ends (Files.fileclose s p f next) := by
  have hcharge := hr.close_pos hcode
  have hpos := hr.ref_pos hcharge
  unfold Files.fileclose
  rw [if_neg (by omega)]
  split_ifs with hmore
  · obtain ⟨value, heq⟩ :=
      fileclosed_eq (s.setFile f { s.file f with ref := (s.file f).ref - 1 }) p next
    rw [heq]
    refine h.setFile hr hcode (codes_setProc ..) rfl rfl rfl (.inl hcharge) ?_
      (Nat.pos_iff_ne_zero.mp hmore) ?_ trivial next.after_idle
    · intro i writable
      have hmore' : 0 < (s.file f).ref - 1 := hmore
      simp [File.IsEnd, hmore', hpos]
    · rw [next.after_fresh]
      exact nofun
  · refine h.move hr hcode (codes_goto ..) ?_ ?_ nofun ?_ fun i => rfl
    · intro g hg _
      refine update_of_ne ?_ ..
      rintro rfl
      omega
    · intro g hg
      simp only [State.goto, State.setProc, State.setFile, update_apply] at hg ⊢
      split_ifs at hg ⊢
      · rfl
      · exact h.free g hg
    · -- What was the file for the end is now the call that is about to close it.
      intro i writable
      have htally := tally_update (fileEnd i writable) s.file f
        { s.file f with ref := 0, type := .none }
      have hnew : fileEnd i writable { s.file f with ref := 0, type := .none } = 0 := by
        simp [fileEnd, File.IsEnd]
      have hfinish : codeEnd i writable (.finish (s.file f) next) = fileEnd i writable (s.file f) :=
        if_congr ⟨fun hc => ⟨hpos, hc⟩, And.right⟩ rfl rfl
      have hclose : codeEnd i writable (.close f next) = 0 := rfl
      rw [hnew] at htally
      rw [hfinish, hclose]
      simp only [State.goto, State.setProc, State.setFile] at htally ⊢
      omega

end

theorem Pipe.isOpen_shut (pipe : Pipe) (writable b : Bool) :
    (pipe.shut writable).isOpen b = if b = writable then false else pipe.isOpen b := by
  cases writable <;> cases b <;> rfl

theorem Pipe.freed_shut (pipe : Pipe) (writable : Bool) : (pipe.shut writable).freed = pipe.freed := by
  cases writable <;> rfl

theorem Pipe.live_of_isOpen {pipe : Pipe} {writable : Bool} (h : pipe.isOpen writable = true) :
    pipe.live = 1 := by
  unfold isOpen at h
  unfold live
  cases writable <;> simp_all

/-- The end that a call is about to close is open. -/
theorem Ends.isOpen_of_closes (h : Ends s) {writable : Bool}
    (hp : (s.codes p).Closes i writable) : (s.pipe i).isOpen writable = true := by
  have hle := le_tally (codeEnd i writable) s.codes p
  have hone : codeEnd i writable (s.codes p) = 1 := if_pos hp
  have hends := h.ends i writable
  by_contra hclosed
  rw [Bool.eq_false_iff.mpr hclosed, Bool.toNat_false] at hends
  omega

section

variable (hr : Refs s) (h : Ends s)
include hr h

theorem Ends.pipeclose (hcode : (s.proc p).code = .finish ff next) (htype : ff.type = .pipe) :
    Ends (Files.pipeclose s p ff.pipe ff.writable next) := by
  have hopen : (s.pipe ff.pipe).isOpen ff.writable = true :=
    h.isOpen_of_closes (p := p) (by rw [State.codes, hcode]; exact ⟨htype, rfl, rfl⟩)
  have hlive := Pipe.live_of_isOpen hopen
  -- One end is shut, by the call that was about to do so.
  have hshut : ∀ i writable, ((s.pipe i).isOpen writable).toNat =
      codeEnd i writable (.finish ff next) +
        ((update s.pipe ff.pipe ((s.pipe ff.pipe).shut ff.writable) i).isOpen
          writable).toNat := by
    intro i writable
    rw [update_apply]
    by_cases hi : i = ff.pipe
    · subst i
      rw [if_pos rfl, Pipe.isOpen_shut]
      by_cases hw : writable = ff.writable
      · subst writable
        have hcloses : codeEnd ff.pipe ff.writable (.finish ff next) = 1 :=
          if_pos ⟨htype, rfl, rfl⟩
        rw [if_pos rfl, hopen, hcloses]
        rfl
      · have hcloses : codeEnd ff.pipe writable (.finish ff next) = 0 :=
          if_neg fun hc => hw hc.2.2.symm
        rw [if_neg hw, hcloses, Nat.zero_add]
    · have hcloses : codeEnd i writable (.finish ff next) = 0 := if_neg fun hc => hi hc.2.1.symm
      rw [if_neg hi, hcloses, Nat.zero_add]
  -- The pipe keeps an open end, or the call goes on to free it.
  have hpage : ∀ c : Code, ((s.pipe ff.pipe).shut ff.writable).live + codeFree ff.pipe c = 1 →
      (∀ i, i ≠ ff.pipe → codeFree i c = 0) → ∀ i,
      (update s.pipe ff.pipe ((s.pipe ff.pipe).shut ff.writable) i).freed +
          (update s.pipe ff.pipe ((s.pipe ff.pipe).shut ff.writable) i).live + codeFree i c =
        (s.pipe i).freed + (s.pipe i).live := by
    intro c hone hother i
    rw [update_apply]
    by_cases hi : i = ff.pipe
    · subst i
      rw [if_pos rfl, Pipe.freed_shut, hlive]
      omega
    · rw [if_neg hi, hother i hi, Nat.add_zero]
  unfold Files.pipeclose
  simp only
  split_ifs with hboth
  · refine h.move hr hcode (codes_goto ..) (fun _ _ _ => rfl) (fun g hg => h.free g hg) (by simp [Code.fresh]) ?_ ?_
    · intro i writable
      have hkfree : codeEnd i writable (.kfree ff.pipe next) = 0 := rfl
      rw [hkfree, hshut i writable]
      simp only [State.goto, State.setProc, State.setPipe]
      omega
    · have hdead : ((s.pipe ff.pipe).shut ff.writable).live = 0 := by simp [Pipe.live, hboth]
      have hfrees : codeFree ff.pipe (.kfree ff.pipe next) = 1 := if_pos rfl
      intro i
      exact congrArg (· + _)
        (hpage (.kfree ff.pipe next) (by rw [hdead, hfrees]) (fun j hj => if_neg (Ne.symm hj)) i)
  · obtain ⟨value, heq⟩ :=
      fileclosed_eq (s.setPipe ff.pipe ((s.pipe ff.pipe).shut ff.writable)) p next
    rw [heq]
    refine h.move hr hcode (codes_setProc ..) (fun _ _ _ => rfl) (fun g hg => h.free g hg) ?_ ?_ ?_
    · rw [next.after_fresh]
      simp
    · intro i writable
      rw [next.after_idle.codeEnd, hshut i writable]
      simp only [State.setProc, State.setPipe]
      omega
    · have hstill : ((s.pipe ff.pipe).shut ff.writable).live = 1 := by
        unfold Pipe.live
        rw [Bool.toNat_eq_one, Bool.or_eq_true]
        by_contra hclosed
        push Not at hclosed
        simp only [ne_eq, Bool.not_eq_true] at hclosed
        exact hboth hclosed
      intro i
      exact congrArg (· + _) (hpage next.after (by rw [hstill, next.after_idle.codeFree])
        (fun j _ => next.after_idle.codeFree j) i)

/-- The rest of `fileclose` for the last reference. -/
theorem Ends.filefinish (hcode : (s.proc p).code = .finish ff next)
    : Ends (Files.filefinish s p ff next) := by
  obtain ⟨value, heq⟩ := fileclosed_eq s p next
  have hother : ff.type ≠ .pipe → Ends (fileclosed s p next) := by
    intro htype
    rw [heq]
    refine h.pass hr hcode (codes_setProc ..) rfl rfl rfl ?_ htype next.after_idle
    rw [next.after_fresh]
    exact nofun
  unfold Files.filefinish
  split
  · next htype => exact h.pipeclose hr hcode htype
  · next htype => exact hother (by rw [htype]; nofun)
  · next htype => exact hother (by rw [htype]; nofun)

theorem Ends.kfree (hcode : (s.proc p).code = .kfree i next)
    : Ends (fileclosed (freePipe s i) p next) := by
  obtain ⟨value, heq⟩ := fileclosed_eq (freePipe s i) p next
  rw [heq]
  refine h.move hr hcode (codes_setProc ..) (fun _ _ _ => rfl) (fun g hg => h.free g hg) ?_ ?_ ?_
  · rw [next.after_fresh]
    exact nofun
  · intro j writable
    have hsame : ((freePipe s i).pipe j).isOpen writable = (s.pipe j).isOpen writable := by
      simp only [freePipe, State.setPipe, update_apply]
      split_ifs with hj
      · subst j
        cases writable <;> rfl
      · rfl
    rw [next.after_idle.codeEnd]
    exact congrArg (_ + Bool.toNat ·) hsame.symm
  · intro j
    rw [next.after_idle.codeFree]
    simp only [State.setProc, freePipe, State.setPipe, update_apply]
    by_cases hj : j = i
    · subst j
      have hfrees : codeFree i (.kfree i next) = 1 := if_pos rfl
      rw [if_pos rfl, hfrees]
      simp only [Pipe.live]
      omega
    · have hfrees : codeFree j (.kfree i next) = 0 := if_neg (Ne.symm hj)
      rw [if_neg hj, hfrees]

theorem Ends.pipekalloc {f0 f1 : Fin nfile}
    (hcode : (s.proc p).code = .pipeKalloc f0 f1) (page : Bool) :
    Ends (Files.pipekalloc s p f0 f1 page) := by
  have hmem0 : f0 ∈ (s.codes p).fresh := by rw [State.codes, hcode]; exact mem_cons_self
  have hmem1 : f1 ∈ (s.codes p).fresh := by
    rw [State.codes, hcode]
    exact mem_cons_of_mem _ (mem_singleton.mpr rfl)
  obtain ⟨hone0, hnone0⟩ := h.fresh p f0 hmem0
  obtain ⟨hone1, hnone1⟩ := h.fresh p f1 hmem1
  unfold Files.pipekalloc
  split_ifs
  · -- The two files are different ones, because each has one reference.
    have hne : f0 ≠ f1 := by
      rintro rfl
      have hle := le_tally (charge f0) s.proc p
      have hcount : (s.proc p).code.held.count f0 = 2 := by
        rw [hcode]
        simp [Code.held]
      rw [← hr.refs f0, charge, hcount] at hle
      omega
    -- The number of the new pipe was not in use.
    have hpage := h.pages s.npipe
    have hnew : allocated s.npipe s.npipe = 0 := if_neg (Nat.lt_irrefl _)
    have hshut : ∀ writable, (s.pipe s.npipe).isOpen writable = false := by
      intro writable
      by_contra hopen
      have := Pipe.live_of_isOpen (Bool.not_eq_false _ ▸ hopen)
      omega
    refine h.move hr hcode (codes_goto ..) ?_ ?_ (by simp [Code.fresh]) ?_ ?_
    · intro g hg _
      have h0 : g ≠ f0 := by
        rintro rfl
        have := hr.charge_fresh hmem0
        omega
      have h1 : g ≠ f1 := by
        rintro rfl
        have := hr.charge_fresh hmem1
        omega
      simp only [State.goto, State.setProc, pipeinit, update_apply]
      rw [if_neg h1, if_neg h0]
    · intro g hg
      simp only [State.goto, State.setProc, pipeinit, update_apply] at hg ⊢
      split_ifs at hg ⊢
      · simp only at hg
        omega
      · simp only at hg
        omega
      · exact h.free g hg
    · intro i writable
      have ht0 := tally_update (fileEnd i writable) s.file f0
        ⟨.pipe, (s.file f0).ref, true, false, s.npipe⟩
      have ht1 := tally_update (fileEnd i writable)
        (update s.file f0 ⟨.pipe, (s.file f0).ref, true, false, s.npipe⟩) f1
        ⟨.pipe, (s.file f1).ref, false, true, s.npipe⟩
      rw [update_of_ne hne.symm] at ht1
      have hold0 : fileEnd i writable (s.file f0) = 0 := by simp [fileEnd, File.IsEnd, hnone0]
      have hold1 : fileEnd i writable (s.file f1) = 0 := by simp [fileEnd, File.IsEnd, hnone1]
      have hc : codeEnd i writable (.pipeKalloc f0 f1) = 0 := rfl
      have hc' : codeEnd i writable (.pipeFd0 f0 f1) = 0 := rfl
      rw [hc, hc']
      simp only [State.goto, State.setProc, pipeinit, update_apply]
      by_cases hi : i = s.npipe
      · subst i
        have hnew0 : fileEnd s.npipe writable ⟨.pipe, (s.file f0).ref, true, false, s.npipe⟩ =
            (!writable).toNat := by
          cases writable <;> simp [fileEnd, File.IsEnd, hone0]
        have hnew1 : fileEnd s.npipe writable ⟨.pipe, (s.file f1).ref, false, true, s.npipe⟩ =
            writable.toNat := by
          cases writable <;> simp [fileEnd, File.IsEnd, hone1]
        have hopen : (⟨true, true, 0⟩ : Pipe).isOpen writable = true := by cases writable <;> rfl
        have hsum : (!writable).toNat + writable.toNat = 1 := by cases writable <;> rfl
        rw [if_pos rfl, hshut, hopen, Bool.toNat_true, Bool.toNat_false]
        omega
      · have hnew0 : fileEnd i writable ⟨.pipe, (s.file f0).ref, true, false, s.npipe⟩ = 0 :=
          if_neg fun he => hi he.2.2.1.symm
        have hnew1 : fileEnd i writable ⟨.pipe, (s.file f1).ref, false, true, s.npipe⟩ = 0 :=
          if_neg fun he => hi he.2.2.1.symm
        rw [if_neg hi]
        omega
    · intro i
      have hc : codeFree i (.pipeKalloc f0 f1) = 0 := rfl
      have hc' : codeFree i (.pipeFd0 f0 f1) = 0 := rfl
      rw [hc, hc']
      simp only [State.goto, State.setProc, pipeinit, update_apply]
      by_cases hi : i = s.npipe
      · subst i
        have hlive : (⟨true, true, 0⟩ : Pipe).live = 1 := rfl
        have hnext : allocated (s.npipe + 1) s.npipe = 1 := if_pos (Nat.lt_succ_self _)
        rw [if_pos rfl, hlive, hnew, hnext]
        simp only
        omega
      · have hsame : allocated (s.npipe + 1) i = allocated s.npipe i :=
          if_congr (by omega) rfl rfl
        rw [if_neg hi, hsame]
  · exact h.goto hr hcode (by simp [Code.fresh]) trivial trivial

theorem Ends.openEnd {omode : BitVec 32}
    (hcode : (s.proc p).code = .openFile f fd omode) : Ends (Files.openEnd s p f fd omode) := by
  have hmem : f ∈ (s.codes p).fresh := by
    rw [State.codes, hcode]
    exact mem_singleton.mpr rfl
  obtain ⟨hone, hnone⟩ := h.fresh p f hmem
  refine h.setFile hr hcode (codes_ret ..) rfl rfl rfl (.inl (hr.charge_fresh hmem)) ?_ ?_ nofun
    trivial trivial
  · intro i writable
    simp [File.IsEnd, hnone]
  · simp [hone]

theorem Ends.dup (hcode : (s.proc p).code = .dup f fd)
    : Ends ((Files.filedup s f).ret p fd.val) := by
  obtain ⟨-, fd', hne, hfd'⟩ := hr.ofile_ok hcode
  have hslot : (s.proc p).slot fd' = some f := by
    rw [slot_of_spent_eq_some (by rw [hcode]; rfl), update_of_ne hne, hfd']
  rw [State.ret, filedup_proc]
  exact h.filedup hr (charge_pos_of_slot hslot) hcode rfl trivial trivial

theorem Ends.forkTurn {np : Fin nproc}
    (hcode : (s.proc p).code = .fork np i) : Ends (Files.forkTurn s p np i) := by
  unfold Files.forkTurn
  split
  · next hi =>
    split
    · exact h.goto hr hcode (by simp [Code.fresh]) trivial trivial
    · next f hf =>
      have hfd : (s.proc p).slot ⟨i, hi⟩ = some f := by rw [slot_of_spent (by rw [hcode]; rfl), hf]
      rw [State.goto, filedup_proc]
      exact h.filedup hr (charge_pos_of_slot hfd) hcode rfl trivial trivial
  · exact h.pass hr hcode (codes_setProc_setProc (by rfl) _) rfl rfl rfl (by simp [Code.fresh]) trivial trivial

/-- The next step of a process in a call. -/
theorem Ends.run (hrun : Files.run s p = some t) : Ends t := by
  unfold Files.run at hrun
  split at hrun
  case h_1 => contradiction
  case h_2 f omode hcode =>
    obtain rfl := some.inj hrun
    unfold Files.openFd
    split
    · exact h.goto hr hcode nofun trivial trivial
    · exact h.put hr hcode (List.Subset.refl _) trivial trivial
  case h_3 f fd omode hcode => exact some.inj hrun ▸ h.openEnd hr hcode
  case h_4 f fd hcode => exact some.inj hrun ▸ h.dup hr hcode
  case h_5 np i hcode => exact some.inj hrun ▸ h.forkTurn hr hcode
  case h_6 np i f hcode =>
    obtain rfl := some.inj hrun
    exact h.pass hr hcode (codes_setProc_setProc (by rfl) _) rfl rfl rfl nofun trivial trivial
  case h_7 f0 hcode =>
    obtain rfl := some.inj hrun
    unfold Files.pipeSecond
    split
    · exact h.goto hr hcode nofun trivial trivial
    · next f1 hf1 =>
      refine h.filealloc hr (freeFile_eq_some hf1) hcode ?_ trivial trivial
      intro g hg
      simp only [Code.fresh, mem_cons, not_mem_nil, or_false] at hg ⊢
      exact hg.symm
  case h_8 => contradiction
  case h_9 rf wf hcode =>
    obtain rfl := some.inj hrun
    unfold Files.pipeFd0
    split
    · exact h.goto hr hcode nofun trivial trivial
    · exact h.put hr hcode nofun trivial trivial
  case h_10 rf wf fd0 hcode =>
    obtain rfl := some.inj hrun
    unfold Files.pipeFd1
    split
    · exact h.put hr hcode nofun trivial trivial
    · next fd1 hfd1 =>
      have hcodes : ((s.put p fd1 (some wf) .user).ret p 0).codes =
          update s.codes p .user := by
        rw [codes_ret, codes_put, update_idem]
      exact h.pass hr hcode hcodes rfl rfl rfl nofun trivial trivial
  case h_11 f next hcode => exact some.inj hrun ▸ h.fileclose hr hcode
  case h_12 ff next hcode => exact some.inj hrun ▸ h.filefinish hr hcode
  case h_13 i next hcode => exact some.inj hrun ▸ h.kfree hr hcode
  case h_14 fd hcode =>
    obtain rfl := some.inj hrun
    unfold Files.exitTurn
    split
    · split
      · exact h.goto hr hcode nofun trivial trivial
      · exact h.goto hr hcode nofun trivial trivial
    · exact h.pass hr hcode (codes_setProc ..) rfl rfl rfl nofun trivial trivial
  case h_15 fd hcode =>
    obtain rfl := some.inj hrun
    exact h.put hr hcode nofun trivial trivial

/-- Every step keeps the account of the ends of pipes. -/
theorem Ends.step {e : Event} (hstep : Files.step s e = some t) :
    Ends t := by
  cases e with
  | «open» p omode =>
    obtain ⟨hready, ⟨⟩⟩ := ite_none_right_eq_some.mp hstep
    unfold Files.sysOpen
    split
    · exact h.fail hr hready _
    · next f hf =>
      exact h.filealloc hr (freeFile_eq_some hf) hready.2
        (fun g hg => .inl (mem_singleton.mp hg)) trivial trivial
  | dup p fd =>
    obtain ⟨hready, ⟨⟩⟩ := ite_none_right_eq_some.mp hstep
    unfold Files.sysDup
    split
    · exact h.fail hr hready _
    · split
      · exact h.fail hr hready _
      · exact h.put hr hready.2 nofun trivial trivial
  | close p fd =>
    obtain ⟨hready, ⟨⟩⟩ := ite_none_right_eq_some.mp hstep
    unfold Files.sysClose
    split
    · exact h.fail hr hready _
    · exact h.put hr hready.2 nofun trivial trivial
  | pipe p =>
    obtain ⟨hready, ⟨⟩⟩ := ite_none_right_eq_some.mp hstep
    unfold Files.sysPipe
    split
    · exact h.fail hr hready _
    · next f hf =>
      exact h.filealloc hr (freeFile_eq_some hf) hready.2
        (fun g hg => .inl (mem_singleton.mp hg)) trivial trivial
  | fork p np =>
    obtain ⟨⟨hready, -⟩, ⟨⟩⟩ := ite_none_right_eq_some.mp hstep
    exact h.pass hr hready.2 (codes_setProc_setProc (by rfl) _) rfl rfl rfl nofun trivial trivial
  | exit p =>
    obtain ⟨⟨hready, -⟩, ⟨⟩⟩ := ite_none_right_eq_some.mp hstep
    exact h.goto hr hready.2 nofun trivial trivial
  | wait p =>
    obtain ⟨hzombie, ⟨⟩⟩ := ite_none_right_eq_some.mp hstep
    have hcode : (s.proc p).code = .user := hr.calm p (by rw [hzombie]; nofun)
    refine h.pass hr hcode (codes_setProc ..) rfl rfl rfl ?_ trivial ?_
    · rw [hcode]
      exact nofun
    · rw [hcode]
      trivial
  | kalloc p page =>
    simp only [Files.step] at hstep
    split at hstep
    · next f0 f1 hcode => exact some.inj hstep ▸ h.pipekalloc hr hcode page
    · contradiction
  | run p => exact h.run hr hstep

end

/-- There are no pipes when the first process starts. -/
theorem ends_boot : Ends boot := by
  refine ⟨fun _ _ => rfl, nofun, ?_, ?_⟩
  · intro i writable
    have hfile : tally (fileEnd i writable) boot.file = 0 := tally_eq_zero_iff.mpr fun _ => rfl
    have hcode : tally (codeEnd i writable) boot.codes = 0 := tally_eq_zero_iff.mpr fun _ => rfl
    rw [hfile, hcode]
    cases writable <;> rfl
  · intro i
    have hcode : tally (codeFree i) boot.codes = 0 := tally_eq_zero_iff.mpr fun _ => rfl
    rw [hcode]
    exact (if_neg (Nat.not_lt_zero i)).symm

/-! ### Runs -/

/-- The number of descriptors that stand for references to a file. -/
def State.slots (s : State) (f : Fin nfile) : ℕ :=
  ∑ p, ∑ fd, if (s.proc p).slot fd = some f then 1 else 0

/-- The number of references to a file that calls hold. -/
def State.held (s : State) (f : Fin nfile) : ℕ := ∑ p, (s.codes p).held.count f

/-- The number of descriptors that point to a file. -/
def State.descriptors (s : State) (f : Fin nfile) : ℕ :=
  ∑ p, ∑ fd, if (s.proc p).ofile fd = some f then 1 else 0

/-- The charges are the descriptors that stand for references, and what calls hold. -/
theorem tally_charge (s : State) (f : Fin nfile) : tally (charge f) s.proc = s.slots f + s.held f :=
  Finset.sum_add_distrib

/-- An end is open when there is a file for it, or a call that is about to close it. -/
theorem Ends.isOpen_iff (h : Ends s) (i : ℕ) (writable : Bool) : (s.pipe i).isOpen writable = true ↔
      (∃ f, (s.file f).IsEnd i writable) ∨ ∃ p, (s.codes p).Closes i writable := by
  have hends := h.ends i writable
  have hfile : 0 < tally (fileEnd i writable) s.file ↔ ∃ f, (s.file f).IsEnd i writable := by
    rw [tally_pos_iff]
    exact exists_congr fun f => by simp [fileEnd, Nat.pos_iff_ne_zero]
  have hcode : 0 < tally (codeEnd i writable) s.codes ↔ ∃ p, (s.codes p).Closes i writable := by
    rw [tally_pos_iff]
    exact exists_congr fun p => by simp [codeEnd, Nat.pos_iff_ne_zero]
  rw [← hfile, ← hcode]
  cases hopen : (s.pipe i).isOpen writable with
  | false =>
    rw [hopen, Bool.toNat_false] at hends
    simp only [Bool.false_eq_true, false_iff]
    omega
  | true =>
    rw [hopen, Bool.toNat_true] at hends
    simp only [true_iff]
    omega

/-- A pipe has no open end when there is no file and no call for one. -/
theorem Ends.live_eq_zero_iff (h : Ends s) (i : ℕ) : (s.pipe i).live = 0 ↔
    ∀ writable, (∀ f, ¬(s.file f).IsEnd i writable) ∧ ∀ p, ¬(s.codes p).Closes i writable := by
  have hlive : (s.pipe i).live = 0 ↔ ∀ writable, (s.pipe i).isOpen writable = false := by
    simp [Pipe.live, Pipe.isOpen]
  rw [hlive]
  refine forall_congr' fun writable => ?_
  rw [← Bool.not_eq_true, h.isOpen_iff, not_or, not_exists, not_exists]

theorem Ends.freed (h : Ends s) (hi : i < s.npipe) : (s.pipe i).freed ≤ 1 ∧ ((s.pipe i).freed = 1 ↔
      (∀ writable, (∀ f, ¬(s.file f).IsEnd i writable) ∧ ∀ p, ¬(s.codes p).Closes i writable) ∧
        ∀ p, ¬(s.codes p).Frees i) := by
  have hpage := h.pages i
  have hone : allocated s.npipe i = 1 := if_pos hi
  have hfrees : tally (codeFree i) s.codes = 0 ↔ ∀ p, ¬(s.codes p).Frees i := by
    simp [tally_eq_zero_iff, codeFree]
  rw [← h.live_eq_zero_iff, ← hfrees]
  omega

/-- In every run of the system, `filedup` and `fileclose` do not panic. The reference count of
a file is the number of descriptors that stand for references and of references that calls
hold, and a file that `filealloc` finds has none of either. An end of a pipe is open while
there is a file for it, or a call that has closed the last descriptor is about to close it.
The page of a pipe is freed once, when there is neither for both ends. -/
theorem file_references {es : List Event} (hrun : Transition.run step boot es = some s) :
    s.panicked = false ∧ (∀ f, (s.file f).ref = s.slots f + s.held f) ∧
    (∀ f, freeFile s = some f → (s.file f).ref = 0 ∧ s.slots f = 0 ∧ s.held f = 0) ∧
    (∀ i writable, (s.pipe i).isOpen writable = true ↔
      (∃ f, (s.file f).IsEnd i writable) ∨ ∃ p, (s.codes p).Closes i writable) ∧
    ∀ i < s.npipe, (s.pipe i).freed ≤ 1 ∧ ((s.pipe i).freed = 1 ↔
      (∀ writable, (∀ f, ¬(s.file f).IsEnd i writable) ∧ ∀ p, ¬(s.codes p).Closes i writable) ∧
        ∀ p, ¬(s.codes p).Frees i) := by
  have hstep : ∀ {s t : State} {e : Event}, Refs s ∧ Ends s → step s e = some t →
      Refs t ∧ Ends t := fun h hs => ⟨h.1.step hs, h.2.step h.1 hs⟩
  have h : Refs s ∧ Ends s :=
    Transition.invariant_run (I := fun s => Refs s ∧ Ends s) hstep ⟨refs_boot, ends_boot⟩ hrun
  obtain ⟨hr, he⟩ := h
  have hrefs : ∀ f, (s.file f).ref = s.slots f + s.held f := fun f =>
    (hr.refs f).trans (tally_charge s f)
  refine ⟨hr.panicked, hrefs, ?_, he.isOpen_iff, fun i hi => he.freed hi⟩
  intro f hf
  have hzero := freeFile_eq_some hf
  have := hrefs f
  exact ⟨hzero, by omega, by omega⟩

/-- A process makes a pipe and closes both ends. -/
theorem file_references_pipe : ∃ s, Transition.run step boot
    [.pipe 0, .run 0, .kalloc 0 true, .run 0, .run 0, .close 0 0, .run 0, .run 0, .close 0 1,
      .run 0, .run 0, .run 0] = some s ∧ (s.pipe 0).freed = 1 ∧ s.panicked = false ∧
    ∀ f, (s.file f).ref = s.slots f + s.held f := by
  have hfreed : (Transition.run step boot
      [.pipe 0, .run 0, .kalloc 0 true, .run 0, .run 0, .close 0 0, .run 0, .run 0, .close 0 1,
        .run 0, .run 0, .run 0]).map (fun s => (s.pipe 0).freed) = some 1 := by
    decide +kernel
  obtain ⟨s, hrun, hs⟩ := map_eq_some_iff.mp hfreed
  have h := file_references hrun
  exact ⟨s, hrun, hs, h.1, h.2.1⟩

/-- Inside of `dup` a file has more descriptors than references, and inside of `fileclose` an
end of a pipe is open without a file for it. -/
theorem references_lag_behind : (∃ es s, Transition.run step boot es = some s ∧
      (s.file 0).ref ≠ s.descriptors 0 + s.held 0) ∧ ∃ es s, Transition.run step boot es = some s ∧
      (s.pipe 0).readopen = true ∧ ∀ f, ¬(s.file f).IsEnd 0 false := by
  constructor
  · have hdup : (Transition.run step boot [.open 0 0, .run 0, .run 0, .dup 0 0]).map
        (fun s => decide ((s.file 0).ref = s.descriptors 0 + s.held 0)) = some false := by
      decide +kernel
    obtain ⟨s, hrun, hs⟩ := map_eq_some_iff.mp hdup
    exact ⟨_, s, hrun, of_decide_eq_false hs⟩
  · have hclose : (Transition.run step boot
        [.pipe 0, .run 0, .kalloc 0 true, .run 0, .run 0, .close 0 0, .run 0]).map
        (fun s => decide ((s.pipe 0).readopen = true ∧ ∀ f, ¬(s.file f).IsEnd 0 false)) =
          some true := by
      decide +kernel
    obtain ⟨s, hrun, hs⟩ := map_eq_some_iff.mp hclose
    exact ⟨_, s, hrun, of_decide_eq_true hs⟩

end Xv6Draw.Files
