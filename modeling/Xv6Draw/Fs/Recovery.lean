import Xv6Draw.Fs.Transactions

/-!
# Crash safety of the log

The steps of `recover_from_log` and `commit`, each with at most one write to the
disk, keep the invariant. So a crash loses nothing that is committed, recovery may
itself be interrupted at any step, and once it is through the disk holds the state
after the latest commit.
-/

namespace Xv6Draw.Log

open CrashStore Function Option Transition

/-- A state with a block written to the disk through the buffer that caches it. -/
structure Stores (s s' : State) (k : Fin nbuf) (b : ℕ) (x : Block) : Prop where
  caches : Caches s k b
  disk : s'.disk = update s.disk b x
  same : ∀ i, (s'.buf i).blockno = (s.buf i).blockno
  /-- The buffer holds what is on the disk. -/
  self : (s'.buf k).data = x ∧ (s'.buf k).dirty = false
  /-- Other buffers hold what they held. -/
  other : ∀ i, i ≠ k → (s'.buf i).data = (s.buf i).data ∧ (s'.buf i).dirty = (s.buf i).dirty
  /-- The processes are where they were. -/
  phase : s'.phase = s.phase ∧ s'.outstanding = s.outstanding
  mode : s'.recovering = s.recovering ∧ s'.committing = s.committing

variable {s s' : State} {src dst k : Fin nbuf} {b tail : ℕ} {x : Block} {a : Store ℕ Block}

/-- `memmove`, `bwrite` and `brelse` write the block. -/
theorem stores_copyBlock (hdst : Caches s dst b) (job : Job) :
    Stores s { copyBlock s src dst b with job := job } dst b (s.buf src).data := by
  refine ⟨hdst, rfl, ?_, ?_, ?_, ⟨rfl, rfl⟩, ⟨rfl, rfl⟩⟩
  · intro i
    by_cases hi : i = dst
    · subst i
      simp only [copyBlock, update_self]
      exact hdst.symm
    · by_cases hsrc : i = src
      · subst i
        simp [copyBlock, hi]
      · simp [copyBlock, hi, hsrc]
  · simp [copyBlock]
  · intro i hi
    by_cases hsrc : i = src
    · subst i
      simp [copyBlock, hi]
    · simp [copyBlock, hi, hsrc]

/-- `write_head` writes the header block. -/
theorem stores_writeHead (hk : Caches s k logStart) (lh : LogHeader) (job : Job) :
    Stores s { writeHead { s with lh := lh } k with job := job } k logStart
      (headerBlock lh (s.buf k).data) := by
  refine ⟨hk, rfl, ?_, ?_, ?_, ⟨rfl, rfl⟩, ⟨rfl, rfl⟩⟩
  · intro i
    by_cases hi : i = k
    · subst i
      simp only [writeHead, update_self]
      exact hk.symm
    · simp [writeHead, hi]
  · simp [writeHead]
  · intro i hi
    simp [writeHead, hi]

theorem not_edits_of_quiet (h : ∀ p, s.phase p = .out) (p : ℕ) (k : Fin nbuf) :
    ¬ Edits s p k := by
  unfold Edits
  simp [h p]

theorem Stores.caches_iff
    (h : Stores s s' k b x) (i : Fin nbuf) (c : ℕ) : Caches s' i c ↔ Caches s i c := by
  unfold Caches
  rw [h.same]

/-- The cache after a block is written. -/
theorem CacheOk.store (h : CacheOk s)
    (hstore : Stores s s' k b x) (hquiet : ∀ p, s.phase p = .out) : CacheOk s' := by
  refine ⟨?_, ?_, ?_⟩
  · intro i j c hi hj
    exact h.unique i j c ((hstore.caches_iff i c).mp hi) ((hstore.caches_iff j c).mp hj)
  · intro i c hi hclean _
    have hi := (hstore.caches_iff i c).mp hi
    by_cases hik : i = k
    · subst i
      obtain rfl : c = b := some.inj (hi.symm.trans hstore.caches)
      rw [hstore.self.1, hstore.disk, update_self]
    · have hcb : c ≠ b := by
        rintro rfl
        exact hik (h.unique i k c hi hstore.caches)
      rw [(hstore.other i hik).2] at hclean
      rw [(hstore.other i hik).1, hstore.disk, update_of_ne hcb]
      exact h.clean i c hi hclean fun p => not_edits_of_quiet hquiet p i
  · intro p i hp
    refine absurd hp (not_edits_of_quiet ?_ p i)
    rw [hstore.phase.1]
    exact hquiet

/-- The system calls after a step of the worker. -/
theorem OpsOk.work (h : OpsOk s) (hjob : s.job ≠ .idle)
    (hphase : s'.phase = s.phase ∧ s'.outstanding = s.outstanding) : OpsOk s' := by
  obtain ⟨ps, hnodup, hlen, hmem⟩ := h.active
  refine ⟨⟨ps, hnodup, by rw [hlen, hphase.2], ?_⟩, ?_⟩
  · rw [hphase.1]
    exact hmem
  · intro _
    rw [hphase.1]
    exact h.quiet hjob

/-- A home block is not touched by a write to the log. -/
theorem Stores.disk_home
    (hstore : Stores s s' k b x) (hb : b ∉ Home) : ∀ c ∈ Home, s'.disk c = s.disk c := by
  intro c hc
  rw [hstore.disk]
  apply update_of_ne
  rintro rfl
  exact hb hc

/-- A buffer that caches a home block is not touched by a write to the log. -/
theorem Stores.ne_of_home
    (hstore : Stores s s' k b x) (hb : b ∉ Home) {i : Fin nbuf} {c : ℕ} (hc : c ∈ Home)
    (hi : Caches s i c) : i ≠ k := by
  rintro rfl
  obtain rfl : c = b := some.inj (hi.symm.trans hstore.caches)
  exact hb hc

/-- A dirty buffer is not the one that was written, and was dirty before. -/
theorem Stores.dirty_of_dirty
    (hstore : Stores s s' k b x) {i : Fin nbuf} (hi : (s'.buf i).dirty = true) :
    i ≠ k ∧ (s.buf i).dirty = true := by
  have hik : i ≠ k := by
    rintro rfl
    rw [hstore.self.2] at hi
    simp at hi
  rw [(hstore.other i hik).2] at hi
  exact ⟨hik, hi⟩

/-- The log in memory after a write to the log on the disk. -/
theorem LogOk.store {cur : ℕ → Block} (h : LogOk s cur) (hstore : Stores s s' k b x) (hb : b ∉ Home)
    (hquiet : ∀ p, s.phase p = .out)
    (hlh : s'.lh = s.lh) (hinstalled : installed s' = installed s) (hjob : s.job ≠ .readHead) :
    LogOk s' cur := by
  refine ⟨?_, ?_, ?_, ?_, ?_, ?_⟩
  · rw [hlh]
    exact h.home
  · intro _
    rw [hlh, hinstalled]
    exact (h.settled hjob).congr (fun _ _ => rfl) (hstore.disk_home hb) fun _ _ => rfl
  · intro i hi
    obtain ⟨-, hi⟩ := hstore.dirty_of_dirty hi
    obtain ⟨hrec, j, hlow, hhigh, hj⟩ := h.dirty i hi
    rw [hlh, hinstalled, hstore.mode.1]
    exact ⟨hrec, j, hlow, hhigh, (hstore.caches_iff _ _).mpr hj⟩
  · intro hrec j hlow hhigh
    rw [hstore.mode.1] at hrec
    rw [hinstalled] at hlow
    rw [hlh] at hhigh ⊢
    obtain ⟨i, hi, hpin⟩ := h.pinned hrec j hlow hhigh
    refine ⟨i, (hstore.caches_iff _ _).mpr hi, ?_⟩
    rw [(hstore.other i (hstore.ne_of_home hb (h.home j hhigh) hi)).2, hpin]
  · intro hrec
    rw [hstore.mode.1] at hrec
    rw [hlh]
    exact h.distinct hrec
  · intro hrec i c hi hc _
    rw [hstore.mode.1] at hrec
    have hi := (hstore.caches_iff i c).mp hi
    rw [(hstore.other i (hstore.ne_of_home hb hc hi)).1]
    exact h.view hrec i c hi hc fun p => not_edits_of_quiet hquiet p i

theorem Inv.quiet (h : Inv s a) (hjob : s.job ≠ .idle) : ∀ p, s.phase p = .out :=
  h.ops.quiet hjob

/-- A buffer that caches a block of the log holds what the disk holds. -/
theorem Inv.log_block (h : Inv s a) (hjob : s.job ≠ .idle) (hk : Caches s k b) (hb : b ∉ Home) :
    (s.buf k).data = s.disk b := by
  apply h.cache.clean k b hk
  · by_contra hdirty
    rw [Bool.not_eq_false] at hdirty
    obtain ⟨-, j, -, hhigh, hj⟩ := h.log.dirty k hdirty
    obtain rfl : s.lh.block j = b := some.inj (hj.symm.trans hk)
    exact hb (h.log.home j hhigh)
  · exact fun p => not_edits_of_quiet (h.quiet hjob) p k

theorem Inv.work_readHead (h : Inv s a) (hjob : s.job = .readHead) (hk : Caches s k logStart) :
    Inv { readHead s k with job := .install 0 } a := by
  have hbusy : s.job ≠ .idle := by simp [hjob]
  have hok := h.job
  simp only [JobOk, hjob] at hok
  obtain ⟨hrec, -, hcommitted⟩ := hok
  have hdata : (s.buf k).data = s.disk logStart :=
    h.log_block hbusy hk (not_home (i := 0) (by decide))
  have hsame : SameCache s { readHead s k with job := .install 0 } := by
    refine ⟨rfl, ?_, ?_, ?_, fun _ _ => Iff.rfl⟩
    all_goals
      intro i
      by_cases hi : i = k
      · subst i
        simp [readHead]
      · simp [readHead, hi]
  have hheader : HeaderWritten { readHead s k with job := .install 0 } := by
    refine ⟨?_, ?_⟩
    · simp only [readHead, hdata]
    · intro j hj
      simp only [readHead, hdata] at hj ⊢
      rw [if_pos hj]
  refine ⟨h.cache.frame hsame ?_, h.ops.work hbusy ⟨rfl, rfl⟩, ?_,
    ⟨.inl hrec, hheader, hcommitted⟩, h.restores, h.sources⟩
  · intro p i hp
    exact absurd hp (not_edits_of_quiet (h.quiet hbusy) p i)
  · refine ⟨?_, ?_, ?_, ?_, ?_, ?_⟩
    · intro j hj
      rw [← hheader.2 j hj]
      exact (h.restores.entry j (hheader.1 ▸ hj)).1
    · intro _
      have hrest := h.restores.rest
      rw [show s.disk logStart 0 = _ from hheader.1] at hrest
      exact hrest.congr (fun j hj => (hheader.2 j hj).symm) (fun _ _ => rfl) hcommitted
    · intro i hi
      rw [hsame.dirty] at hi
      have hnot := (h.log.dirty i hi).1
      simp [hrec] at hnot
    all_goals
      intro hnot
      simp [readHead, hrec] at hnot

/-- The log has room for all entries once its first block is in the cache. -/
theorem Inv.log_room (h : Inv s a)
    (hjob : s.job = .writeLog tail) (hk : Caches s k (logStart + tail + 1)) :
    s.lh.n < logSize := by
  have hok := h.job
  simp only [JobOk, hjob] at hok
  obtain ⟨hrec, -, -, -, hroom, -⟩ := hok
  rcases Nat.eq_zero_or_pos tail with rfl | hpos
  · apply h.room hrec (by simp [installed, hjob]) hk
    intro j hj heq
    have hhome := h.log.home j hj
    rw [heq] at hhome
    exact not_home (i := 1) (by decide) hhome
  · exact hroom hpos

/-- A pass of `write_log` keeps the invariant. -/
theorem Inv.work_writeLog (h : Inv s a) (hjob : s.job = .writeLog tail) (htail : tail < s.lh.n)
    (hsrc : Caches s src (s.lh.block tail))
    (hstore : Stores s s' dst (logStart + tail + 1) (s.buf src).data) (hlh : s'.lh = s.lh)
    (hjob' : s'.job = .writeLog (tail + 1)) : Inv s' a := by
  have hbusy : s.job ≠ .idle := by simp [hjob]
  have hroom := h.log_room hjob hstore.caches
  have hok := h.job
  simp only [JobOk, hjob] at hok
  obtain ⟨hrec, hcommitting, hempty, hpos, -, hlogged⟩ := hok
  have hnot : logStart + tail + 1 ∉ Home := not_home (i := tail + 1) (by omega)
  have hcurrent : (s.buf src).data = a.current (s.lh.block tail) :=
    h.log.view hrec src _ hsrc (h.log.home tail htail)
      fun p => not_edits_of_quiet (h.quiet hbusy) p src
  have hempty' : s'.disk logStart 0 = 0 := by
    rw [hstore.disk, update_of_ne (by omega), hempty]
  have hdisk := hstore.disk_home hnot
  refine ⟨h.cache.store hstore (h.quiet hbusy), h.ops.work hbusy hstore.phase,
    h.log.store hstore hnot (h.quiet hbusy) hlh (by simp [installed, hjob, hjob']) (by simp [hjob]),
    ?_, ?_, ?_⟩
  · simp only [JobOk, hjob', hstore.mode.1, hstore.mode.2, hlh]
    refine ⟨hrec, hcommitting, hempty', hpos, fun _ => hroom, ?_⟩
    intro j hj hjtail
    rw [hlh] at hj ⊢
    rw [hstore.disk]
    rcases Nat.lt_succ_iff_lt_or_eq.mp hjtail with hlt | rfl
    · rw [update_of_ne (by omega)]
      exact hlogged j hj hlt
    · rw [update_self]
      exact hcurrent
  · apply restores_of_empty hempty'
    intro b hb
    rw [hdisk b hb, h.restores.home_eq hempty b hb]
  · intro b hb
    rw [hdisk b hb]
    exact h.sources b hb

/-- The end of `write_log` keeps the invariant. -/
theorem Inv.work_writeLog_end (h : Inv s a) (hjob : s.job = .writeLog tail) (htail : ¬ tail < s.lh.n) :
    Inv { s with job := .commitHead } a := by
  have hok := h.job
  simp only [JobOk, hjob] at hok
  obtain ⟨hrec, hcommitting, hempty, hpos, hroom, hlogged⟩ := hok
  have hfits : s.lh.n < logSize := hroom (by omega)
  have hsame : SameCache s { s with job := .commitHead } :=
    ⟨rfl, fun _ => rfl, fun _ => rfl, fun _ => rfl, fun _ _ => Iff.rfl⟩
  refine ⟨h.cache.frame hsame fun p k hp => (h.cache.edits p k hp).1,
    h.ops.work (by simp [hjob]) ⟨rfl, rfl⟩,
    h.log.frame hsame rfl rfl (by simp [installed, hjob]) (.inl (by simp [hjob])),
    ⟨hrec, hcommitting, hempty, hfits, ?_⟩, h.restores, h.sources⟩
  intro j hj _
  have hjn : j < s.lh.n := hj
  exact hlogged j hjn (by omega)

/-- The `write_head` of a commit keeps the invariant and commits. -/
theorem Inv.work_commitHead (h : Inv s a) (hjob : s.job = .commitHead) {old : Block}
    (hstore : Stores s s' k logStart (headerBlock s.lh old)) (hlh : s'.lh = s.lh)
    (hjob' : s'.job = .install 0) : Inv s' (a.apply .commit) := by
  have hbusy : s.job ≠ .idle := by simp [hjob]
  have hok := h.job
  simp only [JobOk, hjob] at hok
  obtain ⟨hrec, hcommitting, hempty, hroom, hlogged⟩ := hok
  have hnot : logStart ∉ Home := not_home (i := 0) (by decide)
  have hdisk := hstore.disk_home hnot
  have hheader : HeaderWritten s' := by
    unfold HeaderWritten
    rw [hstore.disk, hlh, update_self]
    refine ⟨rfl, ?_⟩
    intro j hj
    have hle : j + 1 ≤ s.lh.n := hj
    simp [headerBlock, hle]
  have hlog : LogOk s' a.current :=
    h.log.store hstore hnot (h.quiet hbusy) hlh (by simp [installed, hjob, hjob']) (by simp [hjob])
  refine ⟨h.cache.store hstore (h.quiet hbusy), h.ops.work hbusy hstore.phase, hlog, ?_,
    ⟨?_, ?_, ?_⟩, ?_⟩
  · simp only [JobOk, hjob', hstore.mode.2]
    exact ⟨.inr hcommitting, hheader, fun _ _ => rfl⟩
  · rw [hheader.1, hlh]
    exact hroom
  · intro j hj
    rw [hheader.1] at hj
    have hjn : j < s.lh.n := hlh ▸ hj
    rw [hheader.2 j hj, hstore.disk, update_of_ne (by omega), hlh]
    exact ⟨h.log.home j hjn, hlogged j hjn hjn⟩
  · have hsettled := hlog.settled (by simp [hjob'])
    rw [show installed s' = 0 by simp [installed, hjob']] at hsettled
    rw [hheader.1]
    exact hsettled.congr hheader.2 (fun _ _ => rfl) fun _ _ => rfl
  · intro b hb
    obtain ⟨v, hv, heq⟩ := h.sources b hb
    rw [hdisk b hb]
    exact ⟨v, List.mem_cons_of_mem _ hv, heq⟩

/-- The disk after an entry of its log is installed. -/
theorem Restores.install {disk v : ℕ → Block} (h : Restores disk v) (htail : tail < disk logStart 0) :
    Restores (update disk (disk logStart (tail + 1)) (disk (logStart + tail + 1))) v := by
  have hroom := h.room
  obtain ⟨hhome, -⟩ := h.entry tail htail
  have hdisk : ∀ {b}, b ≠ disk logStart (tail + 1) →
      update disk (disk logStart (tail + 1)) (disk (logStart + tail + 1)) b = disk b :=
    fun hb => update_of_ne hb _ _
  have hstart := hdisk (ne_logStart_of_home hhome).symm
  refine ⟨?_, ?_, ?_⟩
  · rw [hstart]
    exact h.room
  · rw [hstart]
    intro j hj
    have hslot : logStart + j + 1 ≠ disk logStart (tail + 1) := by
      intro heq
      rw [← heq] at hhome
      exact not_home (i := j + 1) (by omega) hhome
    rw [hdisk hslot]
    exact h.entry j hj
  · rw [hstart]
    intro b hb houtside
    rw [hdisk fun heq => houtside tail (Nat.zero_le _) htail heq.symm]
    exact h.rest b hb houtside

/-- A pass of `install_trans` keeps the invariant. -/
theorem Inv.work_install (h : Inv s a) (hjob : s.job = .install tail) (htail : tail < s.lh.n)
    (hsrc : Caches s src (logStart + tail + 1))
    (hstore : Stores s s' dst (s.lh.block tail) (s.buf src).data) (hlh : s'.lh = s.lh)
    (hjob' : s'.job = .install (tail + 1)) : Inv s' a := by
  have hbusy : s.job ≠ .idle := by simp [hjob]
  have hok := h.job
  simp only [JobOk, hjob] at hok
  obtain ⟨hmode, hheader, hcommitted⟩ := hok
  have hinstalled : installed s = tail := by simp [installed, hjob]
  have hinstalled' : installed s' = tail + 1 := by simp [installed, hjob']
  have htail' : tail < s.disk logStart 0 := hheader.1 ▸ htail
  have hroom := h.restores.room
  have hhome := h.log.home tail htail
  have hslot : logStart + tail + 1 ∉ Home := not_home (i := tail + 1) (by omega)
  have hlogged : (s.buf src).data = s.disk (logStart + tail + 1) := h.log_block hbusy hsrc hslot
  have hlatest : (s.buf src).data = a.latest (s.lh.block tail) := by
    have hentry := (h.restores.entry tail htail').2
    rw [hheader.2 tail htail] at hentry
    rw [hlogged, hentry]
  have hcurrent : (s.buf src).data = a.current (s.lh.block tail) := by
    rw [hlatest, hcommitted _ hhome]
  have hstart : s'.disk logStart = s.disk logStart := by
    rw [hstore.disk]
    exact update_of_ne (ne_logStart_of_home hhome).symm _ _
  refine ⟨h.cache.store hstore (h.quiet hbusy), h.ops.work hbusy hstore.phase,
    ⟨?_, ?_, ?_, ?_, ?_, ?_⟩, ?_, ?_, ?_⟩
  · rw [hlh]
    exact h.log.home
  · intro _
    have hsettled := h.log.settled (by simp [hjob])
    rw [hinstalled] at hsettled
    rw [hlh, hinstalled', hstore.disk]
    exact hsettled.install hcurrent
  · intro i hi
    obtain ⟨hik, hi⟩ := hstore.dirty_of_dirty hi
    obtain ⟨hrec, j, hlow, hhigh, hj⟩ := h.log.dirty i hi
    rw [hlh, hinstalled', hstore.mode.1]
    refine ⟨hrec, j, ?_, hhigh, (hstore.caches_iff _ _).mpr hj⟩
    -- the buffer of the entry that was just installed is clean now
    have hjne : j ≠ tail := by
      rintro rfl
      exact hik (h.cache.unique i dst _ hj hstore.caches)
    omega
  · intro hrec j hlow hhigh
    rw [hstore.mode.1] at hrec
    rw [hlh] at hhigh ⊢
    obtain ⟨i, hi, hpin⟩ := h.log.pinned hrec j (by omega) hhigh
    have hik : i ≠ dst := by
      rintro rfl
      have heq : s.lh.block j = s.lh.block tail :=
        some.inj (hi.symm.trans hstore.caches)
      have hjtail := h.log.distinct hrec j hhigh tail htail heq
      omega
    exact ⟨i, (hstore.caches_iff _ _).mpr hi, by rw [(hstore.other i hik).2, hpin]⟩
  · intro hrec
    rw [hstore.mode.1] at hrec
    rw [hlh]
    exact h.log.distinct hrec
  · intro hrec i c hi hc _
    rw [hstore.mode.1] at hrec
    have hi := (hstore.caches_iff i c).mp hi
    by_cases hik : i = dst
    · subst i
      obtain rfl : c = s.lh.block tail := some.inj (hi.symm.trans hstore.caches)
      rw [hstore.self.1, hcurrent]
    · rw [(hstore.other i hik).1]
      exact h.log.view hrec i c hi hc fun p => not_edits_of_quiet (h.quiet hbusy) p i
  · simp only [JobOk, hjob', HeaderWritten, hstore.mode.1, hstore.mode.2, hlh, hstart]
    exact ⟨hmode, hheader, hcommitted⟩
  · have hrestores := h.restores.install htail'
    rw [hheader.2 tail htail, ← hlogged, ← hstore.disk] at hrestores
    exact hrestores
  · intro b hb
    rw [hstore.disk]
    by_cases hbtail : b = s.lh.block tail
    · subst b
      rw [update_self]
      exact ⟨a.latest, by simp [Store.committed], hlatest⟩
    · rw [update_of_ne hbtail]
      exact h.sources b hb

/-- The end of `install_trans` keeps the invariant. -/
theorem Inv.work_install_end (h : Inv s a) (hjob : s.job = .install tail) (htail : ¬ tail < s.lh.n) :
    Inv { s with job := .clearHead } a := by
  have hok := h.job
  simp only [JobOk, hjob] at hok
  obtain ⟨hmode, -, hcommitted⟩ := hok
  have hinstalled : installed s = tail := by simp [installed, hjob]
  have hsettled := h.log.settled (by simp [hjob])
  refine ⟨⟨h.cache.unique, h.cache.clean, h.cache.edits⟩, h.ops.work (by simp [hjob]) ⟨rfl, rfl⟩,
    ⟨h.log.home, ?_, ?_, ?_, h.log.distinct, h.log.view⟩, ⟨hmode, hcommitted⟩, h.restores, h.sources⟩
  · intro _
    exact settled_of_eq (hsettled.all (by omega)) _ _ _
  · intro k hk
    obtain ⟨-, j, hlow, hhigh, -⟩ := h.log.dirty k hk
    omega
  · intro _ j hlow hhigh
    change s.lh.n ≤ j at hlow
    change j < s.lh.n at hhigh
    omega

/-- The `write_head` that clears the log keeps the invariant. -/
theorem Inv.work_clearHead (h : Inv s a) (hjob : s.job = .clearHead) (hstore : Stores s s' k logStart x)
    (hx : x 0 = 0) (hn : s'.lh.n = 0) (hjob' : s'.job = .done) : Inv s' a := by
  have hbusy : s.job ≠ .idle := by simp [hjob]
  have hok := h.job
  simp only [JobOk, hjob] at hok
  obtain ⟨hmode, hcommitted⟩ := hok
  have hinstalled : installed s = s.lh.n := by simp [installed, hjob]
  have hsettled := h.log.settled (by simp [hjob])
  rw [hinstalled] at hsettled
  have hnot : logStart ∉ Home := not_home (i := 0) (by decide)
  have hdisk := hstore.disk_home hnot
  have hempty : s'.disk logStart 0 = 0 := by
    rw [hstore.disk, update_self, hx]
  have hhome : ∀ b ∈ Home, s'.disk b = a.current b := by
    intro b hb
    rw [hdisk b hb]
    exact hsettled.all (le_refl _) b hb
  refine ⟨h.cache.store hstore (h.quiet hbusy), h.ops.work hbusy hstore.phase,
    ⟨?_, fun _ => settled_of_eq hhome _ _ _, ?_, ?_, ?_, ?_⟩, ?_, ?_, ?_⟩
  · intro j hj
    omega
  · intro i hi
    obtain ⟨-, j, hlow, hhigh, -⟩ := h.log.dirty i (hstore.dirty_of_dirty hi).2
    omega
  · intro _ j _ hj
    omega
  · intro _ j hj
    omega
  · intro hrec i c hi hc _
    rw [hstore.mode.1] at hrec
    have hi := (hstore.caches_iff i c).mp hi
    rw [(hstore.other i (hstore.ne_of_home hnot hc hi)).1]
    exact h.log.view hrec i c hi hc fun p => not_edits_of_quiet (h.quiet hbusy) p i
  · simp only [JobOk, hjob', hstore.mode.1, hstore.mode.2]
    exact ⟨hmode, hempty, hn, hcommitted⟩
  · apply restores_of_empty hempty
    intro b hb
    rw [hhome b hb, hcommitted b hb]
  · intro b hb
    rw [hdisk b hb]
    exact h.sources b hb

/-- The end of recovery or of a commit keeps the invariant. -/
theorem Inv.work_done (h : Inv s a) (hjob : s.job = .done) :
    Inv { s with committing := false, recovering := false, job := .idle } a := by
  have hbusy : s.job ≠ .idle := by simp [hjob]
  have hok := h.job
  simp only [JobOk, hjob] at hok
  obtain ⟨-, hempty, hn, hcommitted⟩ := hok
  have hclean : ∀ k, (s.buf k).dirty = false := by
    intro k
    by_contra hdirty
    rw [Bool.not_eq_false] at hdirty
    obtain ⟨-, j, -, hhigh, -⟩ := h.log.dirty k hdirty
    omega
  have hhome : ∀ b ∈ Home, s.disk b = a.current b := by
    intro b hb
    rw [h.restores.home_eq hempty b hb, hcommitted b hb]
  refine ⟨⟨h.cache.unique, h.cache.clean, h.cache.edits⟩, ⟨h.ops.active, ?_⟩,
    ⟨h.log.home, fun _ => settled_of_eq hhome _ _ _, ?_, ?_, ?_, ?_⟩, ⟨rfl, rfl, hempty⟩,
    h.restores, h.sources⟩
  · intro hnot
    exact absurd rfl hnot
  · intro k hk
    have hk' : (s.buf k).dirty = true := hk
    rw [hclean k] at hk'
    simp at hk'
  · intro _ j _ hj
    change j < s.lh.n at hj
    omega
  · intro _ i hi
    change i < s.lh.n at hi
    omega
  · intro _ k b hk hb _
    have hfree : ∀ p, ¬ Edits s p k := fun p => not_edits_of_quiet (h.quiet hbusy) p k
    exact (h.cache.clean k b hk (hclean k) hfree).trans (hhome b hb)

/-- A step of `recover_from_log` or `commit` keeps the invariant, and commits when
it writes the header of a transaction. -/
theorem Inv.work {t : State} (h : Inv s a) (hstep : Log.work s src dst = some t) :
    Inv t (if s.job = .commitHead then a.apply .commit else a) := by
  unfold Log.work at hstep
  cases hjob : s.job with
  | idle => simp [hjob] at hstep
  | readHead =>
    simp only [hjob] at hstep
    split_ifs at hstep with hhold
    rw [if_neg (by simp), ← some.inj hstep]
    exact h.work_readHead hjob hhold.1
  | writeLog tail =>
    simp only [hjob] at hstep
    rw [if_neg (by simp)]
    split_ifs at hstep with htail hhold
    · obtain ⟨hdst, hsrc⟩ := hhold
      rw [← some.inj hstep]
      exact h.work_writeLog hjob htail hsrc.1 (stores_copyBlock hdst.1 _) rfl rfl
    · rw [← some.inj hstep]
      exact h.work_writeLog_end hjob htail
  | commitHead =>
    simp only [hjob] at hstep
    split_ifs at hstep with hhold
    rw [if_pos rfl, ← some.inj hstep]
    exact h.work_commitHead hjob (stores_writeHead hhold.1 s.lh _) rfl rfl
  | install tail =>
    simp only [hjob] at hstep
    rw [if_neg (by simp)]
    split_ifs at hstep with htail hhold
    · obtain ⟨hsrc, hdst⟩ := hhold
      rw [← some.inj hstep]
      exact h.work_install hjob htail hsrc.1 (stores_copyBlock hdst.1 _) rfl rfl
    · rw [← some.inj hstep]
      exact h.work_install_end hjob htail
  | clearHead =>
    simp only [hjob] at hstep
    split_ifs at hstep with hhold
    rw [if_neg (by simp), ← some.inj hstep]
    exact h.work_clearHead hjob (stores_writeHead hhold.1 { s.lh with n := 0 } _) rfl rfl rfl
  | done =>
    simp only [hjob] at hstep
    rw [if_neg (by simp), ← some.inj hstep]
    exact h.work_done hjob

/-- The invariant of the pair. -/
def Good (x : State × Store ℕ Block) : Prop := Inv x.1 x.2

/-- Every step of the machine with the store beside it keeps the invariant. -/
theorem good_step {x y : State × Store ℕ Block} {e : Event} (h : Good x)
    (hstep : stepBoth x e = some y) : Good y := by
  obtain ⟨s, a⟩ := x
  obtain ⟨t, ht, rfl⟩ := map_eq_some_iff.mp hstep
  change Inv s a at h
  change Inv t (((effect s e).map a.apply).getD a)
  cases e with
  | bread p k b => exact h.bread ht
  | brelse p k => exact h.brelse ht
  | beginOp p => exact h.beginOp ht
  | edit p k data => exact h.edit ht
  | check p => exact h.check ht
  | record p =>
    obtain ⟨k, b, hphase, hk, hinv⟩ := h.record ht
    unfold Caches at hk
    simp only [effect, hphase, hk, map_some, getD_some]
    exact hinv
  | endOp p => exact h.endOp ht
  | work src dst =>
    have hinv := h.work ht
    unfold effect
    split_ifs at hinv ⊢
    · exact hinv
    · exact hinv
  | crash =>
    rw [← some.inj ht]
    exact inv_boot h.restores h.sources fun _ _ => rfl

/-- The invariant holds in every state reached from a disk with an empty log. -/
theorem good_run {disk : ℕ → Block} (hempty : disk logStart 0 = 0) {es : List Event}
    (hrun : run stepBoth (start disk) es = some (s, a)) : Inv s a := by
  have hstart : Good (start disk) := by
    apply inv_boot
    · exact restores_of_empty hempty fun _ _ => rfl
    · intro b _
      exact ⟨disk, List.mem_cons_self, rfl⟩
    · exact fun _ _ => rfl
  exact invariant_run (I := Good) good_step hstart hrun

/-- Once recovery or a commit is through, the home blocks hold the state after the
latest commit. -/
theorem Inv.home_eq_latest (h : Inv s a)
    (hjob : s.job = .done ∨ s.job = .idle) : ∀ b ∈ Home, s.disk b = a.latest b := by
  have hok := h.job
  rcases hjob with hjob | hjob
  · simp only [JobOk, hjob] at hok
    exact h.restores.home_eq hok.2.1
  · simp only [JobOk, hjob] at hok
    exact h.restores.home_eq hok.2.2

/-- In every run, whatever the transactions, the steps and the crashes, home
blocks hold committed data only, and once recovery is through, or a commit, they
hold exactly the state after the latest commit whose header was written. -/
theorem log_crash_safe {disk : ℕ → Block} (hempty : disk logStart 0 = 0) {es : List Event}
    {s : State} {a : Store ℕ Block} (hrun : run stepBoth (start disk) es = some (s, a)) :
    (∀ b ∈ Home, ∃ v ∈ a.committed, s.disk b = v b) ∧
      (s.job = .done ∨ s.job = .idle → ∀ b ∈ Home, s.disk b = a.latest b) := by
  have hgood := good_run hempty hrun
  exact ⟨hgood.sources, hgood.home_eq_latest⟩

/-- A transaction that writes one block, a crash right behind the header write, and
the recovery. -/
def crashBehindHeader : List Event :=
  [.bread 0 0 2, .work 0 0, .work 0 0, .bread 0 0 2, .work 0 0, .work 0 0,
    .beginOp 1, .bread 1 1 40, .edit 1 1 fun _ => 7, .check 1, .record 1, .brelse 1 1, .endOp 1,
    .bread 1 2 3, .bread 1 1 40, .work 1 2, .work 0 0, .bread 1 0 2, .work 0 0, .crash,
    .bread 0 0 2, .work 0 0, .bread 0 1 3, .bread 0 2 40, .work 1 2, .work 0 0, .bread 0 0 2,
    .work 0 0, .work 0 0]

/-- Recovery installs the block of the committed transaction. -/
theorem crash_behind_header_recovers : ∃ s a,
    run stepBoth (start fun _ _ => 0) crashBehindHeader = some (s, a) ∧
      s.job = .idle ∧ s.disk 40 0 = 7 ∧ a.latest 40 0 = 7 := by
  have hrun : (run stepBoth (start fun _ _ => 0) crashBehindHeader).map
      (fun x => (x.1.job, x.1.disk 40 0)) = some (.idle, 7) := by decide +kernel
  obtain ⟨⟨s, a⟩, hs, hx⟩ := map_eq_some_iff.mp hrun
  obtain ⟨hjob, hdisk⟩ := Prod.mk.inj hx
  refine ⟨s, a, hs, hjob, hdisk, ?_⟩
  have hlatest := (log_crash_safe rfl hs).2 (.inr hjob) 40 (by decide)
  rw [← hlatest]
  exact hdisk

end Xv6Draw.Log
