import Xv6Draw.Fs.Recovery
import Xv6Draw.Lib.Reservation

/-!
# The space that `begin_op` reserves

`begin_op` admits a system call when the log has room for `MAXOPBLOCKS` blocks for
each call in progress, counting `LOGSIZE` blocks. `log_write` panics when `log.size - 1`
blocks are logged, one less, because one block of the log is its header, and it
does so before it looks for the block in the log. Here each process is followed
together with the blocks that it has called `log_write` for since its `begin_op`.
-/

namespace Xv6Draw.Log

open CrashStore Finset Function Option Reservation Transition

/-- The blocks that each process has called `log_write` for in its system call, after
an event. -/
def noteCall (s : State) (used : ℕ → Finset ℕ) : Event → ℕ → Finset ℕ
  | .beginOp p => update used p ∅
  | .edit p k _ => update used p (used p ∪ (s.buf k).blockno.toFinset)
  | _ => used

/-- A call of `log_write` that leaves the process with at most `m` distinct blocks in
its system call. -/
def Within (m : ℕ) (x : State × (ℕ → Finset ℕ)) (e : Event) : Prop :=
  match e with
  | .edit p _ _ => (noteCall x.1 x.2 e p).card ≤ m
  | _ => True

instance (m : ℕ) (x : State × (ℕ → Finset ℕ)) : DecidablePred (Within m x)
  | .edit p k data => Nat.decLe (noteCall x.1 x.2 (.edit p k data) p).card m
  | .bread _ _ _ | .brelse _ _ | .beginOp _ | .check _ | .record _ | .endOp _ | .work _ _ | .crash =>
    .isTrue trivial

/-- One step of system calls that log at most `m` distinct blocks each. -/
def opStep (m : ℕ) (x : State × (ℕ → Finset ℕ)) (e : Event) : Option (State × (ℕ → Finset ℕ)) :=
  if Within m x e then (step x.1 e).map fun s => (s, noteCall x.1 x.2 e) else none

/-- A process is in `log_write`, which panics with "too big a transaction". -/
def TooBig (s : State) (p : ℕ) : Prop :=
  ∃ k, s.phase p = .editing k ∧ (s.lh.n ≥ logSize ∨ s.lh.n ≥ logSize - 1)

/-- The logged blocks. -/
def entries (lh : LogHeader) : Finset ℕ := (Finset.range lh.n).image lh.block

/-- `log_write` adds its block to the logged ones. -/
theorem entries_record (lh : LogHeader) (b : ℕ) : entries (lh.record b) = insert b (entries lh) := by
  obtain ⟨hle, hold, ⟨i, hi, hb⟩, hnew⟩ := record_spec lh b
  ext c
  simp only [entries, mem_image, mem_range, mem_insert]
  constructor
  · rintro ⟨j, hj, rfl⟩
    rcases hnew j hj with heq | hlt
    · exact .inl heq
    · exact .inr ⟨j, hlt, (hold j hlt).symm⟩
  · rintro (rfl | ⟨j, hj, rfl⟩)
    · exact ⟨i, hi, hb⟩
    · exact ⟨j, by omega, hold j hj⟩

variable {s t : State} {a : Store ℕ Block} {m p : ℕ} {used : ℕ → Finset ℕ} {k : Fin nbuf}
  {x : State × (ℕ → Finset ℕ)}

/-- No block is logged twice, so that the header counts the logged blocks. -/
theorem Inv.card_entries (h : Inv s a) (hrec : s.recovering = false) :
    (entries s.lh).card = s.lh.n := by
  unfold entries
  rw [card_image_of_injOn, card_range]
  intro i hi j hj heq
  simp only [coe_range, Set.mem_Iio] at hi hj
  exact h.log.distinct hrec i hi j hj heq

/-- What the calls have reserved. Between commits the demand leaves two blocks of the
log. -/
structure Reserved (m : ℕ) (s : State) (used : ℕ → Finset ℕ) : Prop where
  within : ∀ p, (used p).card ≤ m
  /-- A process in `log_write` has called it for that block. -/
  called : ∀ p k b, Edits s p k → Caches s k b → b ∈ used p
  /-- The demand of the calls in progress. With none of them nothing is logged. -/
  room : s.job = .idle → ∃ ps : Finset ℕ, (∀ p, p ∈ ps ↔ s.phase p ≠ .out) ∧
    demand m used (entries s.lh) ps + 2 ≤ logSize ∧ (ps = ∅ → entries s.lh = ∅)

/-- A step that changes neither the log nor which processes are in calls. -/
theorem Reserved.frame (h : Reserved m s used)
    (hlh : t.lh = s.lh) (hjob : t.job = s.job) (hout : ∀ p, t.phase p ≠ .out ↔ s.phase p ≠ .out)
    (hcalled : ∀ p k b, Edits t p k → Caches t k b → b ∈ used p) : Reserved m t used := by
  refine ⟨h.within, hcalled, ?_⟩
  rw [hlh, hjob]
  simp only [hout]
  exact h.room

/-- Taking a buffer keeps the reservations. -/
theorem Reserved.bread (h : Reserved m s used) (hinv : Inv s a) {b : ℕ}
    (hstep : Log.bread s p k b = some t) : Reserved m t used := by
  have hfree : (s.buf k).holder = none ∧ ∃ buf, t = { s with buf := update s.buf k buf } := by
    unfold Log.bread at hstep
    split_ifs at hstep with hholder
    · exact ⟨not_not.mp hholder, _, (some.inj hstep).symm⟩
    · exact ⟨not_not.mp hholder, _, (some.inj hstep).symm⟩
  obtain ⟨hholder, buf, rfl⟩ := hfree
  refine h.frame rfl rfl (fun _ => Iff.rfl) ?_
  intro q i c hedits hcaches
  -- a buffer in use by `log_write` is locked, so it is not the one that is taken
  have hne : i ≠ k := by
    rintro rfl
    obtain ⟨hq, -⟩ := hinv.cache.edits q i hedits
    rw [hholder] at hq
    contradiction
  apply h.called q i c hedits
  simpa [Caches, hne] using hcaches

theorem Reserved.brelse (h : Reserved m s used) (hstep : Log.brelse s p k = some t) : Reserved m t
    used := by
  unfold Log.brelse at hstep
  split_ifs at hstep
  cases hstep
  refine h.frame rfl rfl (fun _ => Iff.rfl) ?_
  intro q i c hedits hcaches
  apply h.called q i c hedits
  by_cases hi : i = k
  · subst i
    simpa [Caches] using hcaches
  · simpa [Caches, hi] using hcaches

/-- The processes in calls, as a set of the size that is counted. -/
theorem OpsOk.card_eq (h : OpsOk s) {ps : Finset ℕ} (hps : ∀ p, p ∈ ps ↔ s.phase p ≠ .out) :
    ps.card = s.outstanding := by
  obtain ⟨qs, hnodup, hlen, hmem⟩ := h.active
  have heq : ps = qs.toFinset := by
    ext p
    rw [hps, List.mem_toFinset, hmem]
  rw [heq, List.toFinset_card_of_nodup hnodup, hlen]

/-- A call that `begin_op` admits finds room for its blocks. -/
theorem Reserved.beginOp (hm : m < maxOpBlocks) (h : Reserved m s used) (hinv : Inv s a)
    (hstep : Log.beginOp s p = some t) : Reserved m t (update used p ∅) := by
  unfold Log.beginOp at hstep
  split_ifs at hstep with hguard hcommitting hroom
  cases hstep
  rw [not_or, not_not, Bool.not_eq_true] at hguard
  rw [Bool.not_eq_true] at hcommitting
  have hjob := hinv.idle hguard.2 hcommitting
  obtain ⟨ps, hps, hdemand, hnone⟩ := h.room hjob
  have hcard := hinv.ops.card_eq hps
  have hlogged := hinv.card_entries hguard.2
  have hp : p ∉ ps := fun hmem => (hps p).mp hmem hguard.1
  constructor
  · intro q
    by_cases hq : q = p
    · subst q
      simp
    · rw [update_of_ne hq]
      exact h.within q
  · intro q k b hedits hcaches
    by_cases hq : q = p
    · subst q
      simp [Edits] at hedits
    · rw [update_of_ne hq]
      exact h.called q k b (by simpa [Edits, hq] using hedits) hcaches
  · intro _
    refine ⟨insert p ps, ?_, ?_, fun hempty => absurd hempty (insert_ne_empty p ps)⟩
    · intro q
      by_cases hq : q = p
      · subst q
        simp
      · simp [hq, hps]
    · have hle := demand_le m (update used p ∅) (entries s.lh) (insert p ps)
      rw [card_insert_of_notMem hp, hcard, hlogged] at hle
      have hnone' : s.outstanding = 0 → s.lh.n = 0 := by
        intro hzero
        rw [← hlogged, hnone (card_eq_zero.mp (hcard.trans hzero)), card_empty]
      unfold maxOpBlocks at hm hroom
      unfold logSize at hroom ⊢
      simp only
      have hmul : (s.outstanding + 1) * m ≤ (s.outstanding + 1) * 9 :=
        Nat.mul_le_mul_left _ (by omega)
      -- with another call in progress there are two blocks to spare, one for each
      by_cases hzero : s.outstanding = 0
      · have hn := hnone' hzero
        omega
      · omega

/-- A call of `log_write` within the bound keeps the reservations. -/
theorem Reserved.edit (h : Reserved m s used) {data : Block} (hstep : Log.edit s p k data = some t)
    (hwithin : (used p ∪ (s.buf k).blockno.toFinset).card ≤ m) :
    Reserved m t (update used p (used p ∪ (s.buf k).blockno.toFinset)) := by
  unfold Log.edit at hstep
  split at hstep
  · contradiction
  rename_i b hb
  split_ifs at hstep with hguard
  cases hstep
  constructor
  · intro q
    by_cases hq : q = p
    · subst q
      rw [update_self]
      exact hwithin
    · rw [update_of_ne hq]
      exact h.within q
  · intro q i c hedits hcaches
    have hcaches' : Caches s i c := by
      by_cases hi : i = k
      · subst i
        simpa [Caches] using hcaches
      · simpa [Caches, hi] using hcaches
    by_cases hq : q = p
    · subst q
      obtain rfl : k = i := by simpa [Edits] using hedits
      unfold Caches at hcaches'
      simp [hcaches']
    · rw [update_of_ne hq]
      exact h.called q i c (by simpa [Edits, hq] using hedits) hcaches'
  · intro hjob
    obtain ⟨ps, hps, hdemand, hnone⟩ := h.room hjob
    refine ⟨ps, ?_, ?_, hnone⟩
    · intro q
      by_cases hq : q = p
      · subst q
        simp [hps, hguard.1]
      · simp [hq, hps]
    · have hsub : ∀ q ∈ ps, used q ⊆
          update used p (used p ∪ (s.buf k).blockno.toFinset) q := by
        intro q _
        by_cases hq : q = p
        · subst q
          simp
        · rw [update_of_ne hq]
      have hle := demand_le_of_subset (m := m) (entries s.lh) hsub
      simp only
      omega

/-- The checks of `log_write` keep the reservations. -/
theorem Reserved.check (h : Reserved m s used) (hstep : logWriteCheck s p = some t) : Reserved m t
    used := by
  unfold logWriteCheck at hstep
  split at hstep
  · rename_i k hphase
    split_ifs at hstep
    cases hstep
    refine h.frame rfl rfl ?_ ?_
    · intro q
      by_cases hq : q = p
      · subst q
        simp [hphase]
      · simp [hq]
    · intro q i c hedits hcaches
      apply h.called q i c _ hcaches
      by_cases hq : q = p
      · subst q
        obtain rfl : k = i := by simpa [Edits] using hedits
        exact .inl hphase
      · simpa [Edits, hq] using hedits
  · contradiction

/-- The update of `log_write` uses up what was reserved for the block. -/
theorem Reserved.record (h : Reserved m s used) (hstep : logWriteRecord s p = some t) : Reserved m t
    used := by
  unfold logWriteRecord at hstep
  split at hstep
  · rename_i k hphase
    split at hstep
    · contradiction
    rename_i b hb
    cases hstep
    have hused : b ∈ used p := h.called p k b (.inr hphase) hb
    refine ⟨h.within, ?_, ?_⟩
    · intro q i c hedits hcaches
      by_cases hq : q = p
      · subst q
        simp [Edits] at hedits
      · apply h.called q i c (by simpa [Edits, hq] using hedits)
        by_cases hi : i = k
        · subst i
          simpa [Caches] using hcaches
        · simpa [Caches, hi] using hcaches
    · intro hjob
      obtain ⟨ps, hps, hdemand, -⟩ := h.room hjob
      have hp : p ∈ ps := (hps p).mpr (by simp [hphase])
      refine ⟨ps, ?_, ?_, fun hempty => absurd (hempty ▸ hp) (notMem_empty p)⟩
      · intro q
        by_cases hq : q = p
        · subst q
          simp [hp]
        · simp [hq, hps]
      · have hle := demand_insert_le (entries s.lh) hp hused (h.within p)
        rw [entries_record]
        omega
  · contradiction

/-- A call that ends gives back what it has left. -/
theorem Reserved.endOp (h : Reserved m s used) (hinv : Inv s a) (hstep : Log.endOp s p = some t) :
    Reserved m t used := by
  have hcases : s.phase p = .running ∧ ∃ outstanding committing job worker,
      t = { s with
        outstanding := outstanding, committing := committing, job := job, worker := worker,
        phase := update s.phase p .out } ∧
      (job = .idle → s.job = .idle ∧ s.outstanding - 1 ≠ 0) := by
    unfold Log.endOp at hstep
    split_ifs at hstep with hguard hlast hlogged
    · exact ⟨by simpa using (not_or.mp hguard).1, _, _, _, _, (some.inj hstep).symm, nofun⟩
    · exact ⟨by simpa using (not_or.mp hguard).1, _, _, _, _, (some.inj hstep).symm, nofun⟩
    · exact ⟨by simpa using (not_or.mp hguard).1, _, _, _, _, (some.inj hstep).symm,
        fun hjob => ⟨hjob, hlast⟩⟩
  obtain ⟨hphase, outstanding, committing, job, worker, rfl, hidle⟩ := hcases
  refine ⟨h.within, ?_, ?_⟩
  · intro q k b hedits hcaches
    by_cases hq : q = p
    · subst q
      simp [Edits] at hedits
    · exact h.called q k b (by simpa [Edits, hq] using hedits) hcaches
  · intro hjob
    obtain ⟨hjob', hmore⟩ := hidle hjob
    obtain ⟨ps, hps, hdemand, -⟩ := h.room hjob'
    have hcard := hinv.ops.card_eq hps
    have hp : p ∈ ps := (hps p).mpr (by simp [hphase])
    refine ⟨ps.erase p, ?_, ?_, ?_⟩
    · intro q
      by_cases hq : q = p
      · subst q
        simp
      · simp [hq, hps]
    · have hle := demand_erase_le m used (entries s.lh) ps p
      simp only
      omega
    · intro hempty
      have herase := card_erase_of_mem hp
      rw [hempty, card_empty] at herase
      omega

/-- A step of recovery or of a commit touches no call, and is the last one only when
the log has been cleared. -/
theorem work_frame {src dst : Fin nbuf} (hstep : work s src dst = some t) :
    s.job ≠ .idle ∧ t.phase = s.phase ∧ (t.job = .idle → s.job = .done ∧ t.lh = s.lh) := by
  unfold work at hstep
  split at hstep
  · contradiction
  all_goals rename_i hjob
  all_goals try split_ifs at hstep
  all_goals cases hstep
  all_goals simp [hjob, readHead, copyBlock, writeHead]

/-- Recovery and commits keep the reservations. -/
theorem Reserved.work (h : Reserved m s used) (hinv : Inv s a) {src dst : Fin nbuf}
    (hstep : Log.work s src dst = some t) : Reserved m t used := by
  obtain ⟨hjob, hphase, hlast⟩ := work_frame hstep
  have hquiet : ∀ p, t.phase p = .out := by
    intro p
    rw [hphase]
    exact hinv.ops.quiet hjob p
  refine ⟨h.within, ?_, ?_⟩
  · intro p k b hedits
    simp [Edits, hquiet p] at hedits
  · intro hidle
    obtain ⟨hdone, hlh⟩ := hlast hidle
    have hcleared := hinv.job
    simp only [JobOk, hdone] at hcleared
    have hempty : entries t.lh = ∅ := by
      rw [hlh, entries, hcleared.2.2.1, range_zero, Finset.image_empty]
    refine ⟨∅, by simp [hquiet], ?_, fun _ => hempty⟩
    rw [hempty]
    simp [demand, logSize]

/-- The invariant of the run: the one of the log, and the reservations. -/
def Admitted (m : ℕ) (x : State × (ℕ → Finset ℕ)) : Prop :=
  (∃ a, Inv x.1 a) ∧ Reserved m x.1 x.2

/-- Every step keeps the reservations. -/
theorem admitted_step (hm : m < maxOpBlocks) {y : State × (ℕ → Finset ℕ)} {e : Event}
    (h : Admitted m x) (hstep : opStep m x e = some y) : Admitted m y := by
  obtain ⟨⟨a, hinv⟩, hres⟩ := h
  unfold opStep at hstep
  split_ifs at hstep with hwithin
  obtain ⟨t, ht, rfl⟩ := map_eq_some_iff.mp hstep
  constructor
  · have hboth : stepBoth (x.1, a) e = some (t, ((effect x.1 e).map a.apply).getD a) := by
      simp only [stepBoth, ht, map_some]
    exact ⟨_, good_step (x := (x.1, a)) hinv hboth⟩
  · cases e with
    | bread p k b => exact hres.bread hinv ht
    | brelse p k => exact hres.brelse ht
    | beginOp p => exact hres.beginOp hm hinv ht
    | edit p k data =>
      refine hres.edit ht ?_
      simpa [Within, noteCall] using hwithin
    | check p => exact hres.check ht
    | record p => exact hres.record ht
    | endOp p => exact hres.endOp hinv ht
    | work src dst => exact hres.work hinv ht
    | crash =>
      cases ht
      exact ⟨hres.within, fun p k b hedits => by simp [Edits, boot] at hedits, nofun⟩

/-- Within one block less than `MAXOPBLOCKS` the reservations are enough. -/
theorem not_tooBig_of_lt (hm : m < maxOpBlocks) {disk : ℕ → Block}
    (hempty : disk logStart 0 = 0) {es : List Event}
    (hrun : run (opStep m) (boot disk, fun _ => ∅) es = some x) (p : ℕ) :
    ¬ TooBig x.1 p := by
  have hnone : run stepBoth (start disk) [] = some (boot disk, Store.init disk) := rfl
  have hstart : Admitted m (boot disk, fun _ => ∅) := by
    refine ⟨⟨Store.init disk, good_run hempty hnone⟩, ?_, ?_, nofun⟩
    · intro q
      simp
    · intro q k b hedits
      simp [Edits, boot] at hedits
  obtain ⟨⟨a, hinv⟩, hres⟩ := invariant_run (admitted_step hm) hstart hrun
  rintro ⟨k, hphase, hfull⟩
  have hjob := hinv.ops.idle (p := p) (by simp [hphase])
  have hrec : x.1.recovering = false := by
    have hok := hinv.job
    simp only [JobOk, hjob] at hok
    exact hok.1
  obtain ⟨ps, -, hdemand, -⟩ := hres.room hjob
  have hcard := card_le_demand m x.2 (entries x.1.lh) ps
  rw [hinv.card_entries hrec] at hcard
  omega

theorem opStep_mono {n : ℕ} (h : m ≤ n) {y : State × (ℕ → Finset ℕ)} {e : Event}
    (hstep : opStep m x e = some y) : opStep n x e = some y := by
  unfold opStep at hstep ⊢
  split_ifs at hstep with hwithin
  have hwithin' : Within n x e := by
    cases e with
    | edit p k data => exact hwithin.trans h
    | _ => trivial
  rw [if_pos hwithin']
  exact hstep

/-- Three calls that log ten blocks each, up to the last `log_write`. -/
def threeFullCalls : List Event :=
  let logs := fun (i : ℕ) => [Event.bread (1 + i / 10) (Fin.ofNat nbuf i) (40 + i),
    .edit (1 + i / 10) (Fin.ofNat nbuf i) fun _ => 0]
  let done := fun (i : ℕ) => [Event.check (1 + i / 10), .record (1 + i / 10),
    .brelse (1 + i / 10) (Fin.ofNat nbuf i)]
  [.bread 0 0 2, .work 0 0, .work 0 0, .bread 0 0 2, .work 0 0, .work 0 0,
    .beginOp 1, .beginOp 2, .beginOp 3] ++ (List.range 29).flatMap (fun i => logs i ++ done i) ++ logs 29

/-- The last of thirty blocks finds twenty-nine in the log. -/
theorem threeFullCalls_tooBig :
    ∃ x, run (opStep maxOpBlocks) (boot fun _ _ => 0, fun _ => ∅) threeFullCalls = some x ∧
      TooBig x.1 3 := by
  have hrun : (run (opStep maxOpBlocks) (boot fun _ _ => 0, fun _ => ∅)
      threeFullCalls).map (fun x => (x.1.phase 3, x.1.lh.n)) =
      some (.editing (Fin.ofNat nbuf 29), 29) := by decide +kernel
  obtain ⟨x, hx, heq⟩ := map_eq_some_iff.mp hrun
  obtain ⟨hphase, hn⟩ := Prod.mk.inj heq
  exact ⟨x, hx, _, hphase, .inr hn.ge⟩

/-- **The reservation.** System calls that log at most `m` distinct blocks each, in any
interleaving, with crashes and recoveries between, never reach the panic of
`log_write`, exactly when `m` is less than `MAXOPBLOCKS`. -/
theorem log_write_fits_iff (m : ℕ) :
    (∀ disk, disk logStart 0 = 0 → ∀ es x, run (opStep m) (boot disk, fun _ => ∅) es = some x →
      ∀ p, ¬ TooBig x.1 p) ↔ m < maxOpBlocks := by
  constructor
  · intro h
    by_contra hm
    obtain ⟨x, hrun, hbig⟩ := threeFullCalls_tooBig
    have hrun' := run_mono (opStep_mono (not_lt.mp hm)) hrun
    exact h _ rfl _ x hrun' 3 hbig
  · intro hm disk hempty es x hrun
    exact not_tooBig_of_lt hm hempty hrun

/-- Three calls within `MAXOPBLOCKS` blocks each reach the panic. -/
theorem reservation_too_small :
    ∃ es x, run (opStep maxOpBlocks) (boot fun _ _ => 0, fun _ => ∅) es = some x ∧
      TooBig x.1 3 :=
  ⟨threeFullCalls, threeFullCalls_tooBig⟩

end Xv6Draw.Log
