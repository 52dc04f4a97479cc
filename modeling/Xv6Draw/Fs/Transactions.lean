import Xv6Draw.Fs.Log

/-!
# The invariant of the log

In every reachable state the disk restores the state after the latest commit: the
home blocks that the header of the log does not list hold it, and the log blocks
hold the rest. The invariant adds what the buffer cache and the log in memory
hold, and the steps of the file system's processes keep it.

The log never outgrows its blocks although `log_write` checks the room before it
takes the lock: every logged block pins a buffer until it is installed, and the
first block of the log needs one more.
-/

namespace Xv6Draw.Log

open CrashStore Function Option

/-- A buffer caches a block. -/
def Caches (s : State) (k : Fin nbuf) (b : ℕ) : Prop := (s.buf k).blockno = some b

/-- A process is in `log_write` for a buffer. -/
def Edits (s : State) (p : ℕ) (k : Fin nbuf) : Prop :=
  s.phase p = .editing k ∨ s.phase p = .checked k

/-- The log entry from which on blocks are not installed. -/
def installed (s : State) : ℕ :=
  match s.job with
  | .install tail => tail
  | .clearHead => s.lh.n
  | _ => 0

/-- A disk from which recovery restores given contents of the home blocks. -/
structure Restores (disk v : ℕ → Block) : Prop where
  /-- The log has room for what its header lists. -/
  room : disk logStart 0 < logSize
  /-- The header lists home blocks, and the log holds their contents. -/
  entry : ∀ j < disk logStart 0, disk logStart (j + 1) ∈ Home ∧
    disk (logStart + j + 1) = v (disk logStart (j + 1))
  /-- The other home blocks hold theirs. -/
  rest : Settled Home (fun j => disk logStart (j + 1)) 0 (disk logStart 0) disk v

/-- The buffer cache. -/
structure CacheOk (s : State) : Prop where
  unique : ∀ i j b, Caches s i b → Caches s j b → i = j
  /-- A clean buffer that no one is changing holds what the disk holds. -/
  clean : ∀ k b, Caches s k b → (s.buf k).dirty = false → (∀ p, ¬ Edits s p k) →
    (s.buf k).data = s.disk b
  /-- Only the holder changes a buffer, which caches a home block. -/
  edits : ∀ p k, Edits s p k → (s.buf k).holder = some p ∧ ∃ b, Caches s k b ∧ b ∈ Home

/-- The system calls in progress. -/
structure OpsOk (s : State) : Prop where
  active : ∃ ps : List ℕ, ps.Nodup ∧ ps.length = s.outstanding ∧ ∀ p, p ∈ ps ↔ s.phase p ≠ .out
  /-- There are none during recovery and commits. -/
  quiet : s.job ≠ .idle → ∀ p, s.phase p = .out

/-- The log in memory, for given contents of the home blocks. -/
structure LogOk (s : State) (cur : ℕ → Block) : Prop where
  home : ∀ j < s.lh.n, s.lh.block j ∈ Home
  /-- What is not logged, or is installed, is on the disk. -/
  settled : s.job ≠ .readHead → Settled Home s.lh.block (installed s) s.lh.n s.disk cur
  /-- Dirty buffers cache logged blocks. -/
  dirty : ∀ k, (s.buf k).dirty = true →
    s.recovering = false ∧ ∃ j, installed s ≤ j ∧ j < s.lh.n ∧ Caches s k (s.lh.block j)
  /-- Logged blocks are cached in dirty buffers until they are installed. -/
  pinned : s.recovering = false → ∀ j, installed s ≤ j → j < s.lh.n →
    ∃ k, Caches s k (s.lh.block j) ∧ (s.buf k).dirty = true
  distinct : s.recovering = false → ∀ i < s.lh.n, ∀ j < s.lh.n, s.lh.block i = s.lh.block j → i = j
  /-- The cache holds the current contents. -/
  view : s.recovering = false → ∀ k b, Caches s k b → b ∈ Home → (∀ p, ¬ Edits s p k) →
    (s.buf k).data = cur b

/-- The log on the disk holds the contents of the first logged blocks. -/
def Logged (s : State) (cur : ℕ → Block) (tail : ℕ) : Prop :=
  ∀ j < s.lh.n, j < tail → s.disk (logStart + j + 1) = cur (s.lh.block j)

/-- The header on the disk is the one in memory. -/
def HeaderWritten (s : State) : Prop :=
  s.disk logStart 0 = s.lh.n ∧ ∀ j < s.lh.n, s.disk logStart (j + 1) = s.lh.block j

/-- Nothing is written behind the latest commit. -/
def Committed (a : Store ℕ Block) : Prop := ∀ b ∈ Home, a.current b = a.latest b

/-- What holds before each step of recovery and commits. -/
def JobOk (s : State) (a : Store ℕ Block) : Prop :=
  match s.job with
  | .idle => s.recovering = false ∧ s.committing = false ∧ s.disk logStart 0 = 0
  | .readHead => s.recovering = true ∧ s.lh.n = 0 ∧ Committed a
  | .writeLog tail => s.recovering = false ∧ s.committing = true ∧ s.disk logStart 0 = 0 ∧
    0 < s.lh.n ∧ (0 < tail → s.lh.n < logSize) ∧ Logged s a.current tail
  | .commitHead => s.recovering = false ∧ s.committing = true ∧ s.disk logStart 0 = 0 ∧
    s.lh.n < logSize ∧ Logged s a.current s.lh.n
  | .install _ => (s.recovering = true ∨ s.committing = true) ∧ HeaderWritten s ∧ Committed a
  | .clearHead => (s.recovering = true ∨ s.committing = true) ∧ Committed a
  | .done => (s.recovering = true ∨ s.committing = true) ∧ s.disk logStart 0 = 0 ∧ s.lh.n = 0 ∧
    Committed a

/-- The invariant of the machine and the store beside it. -/
structure Inv (s : State) (a : Store ℕ Block) : Prop where
  cache : CacheOk s
  ops : OpsOk s
  log : LogOk s a.current
  job : JobOk s a
  restores : Restores s.disk a.latest
  /-- Home blocks hold committed data only. -/
  sources : ∀ b ∈ Home, ∃ v ∈ a.committed, s.disk b = v b

theorem not_home {i : ℕ} (hi : i < logSize) : logStart + i ∉ Home := by
  rintro (h | h)
  · omega
  · omega

variable {b p : ℕ} {disk : ℕ → Block} {a : Store ℕ Block} {s t : State} {k : Fin nbuf}

theorem ne_logStart_of_home (hb : b ∈ Home) : b ≠ logStart := by
  rintro rfl
  exact not_home (i := 0) (by decide) hb

theorem Restores.home_eq {v : ℕ → Block} (h : Restores disk v) (hzero : disk logStart 0 = 0) :
    ∀ b ∈ Home, disk b = v b :=
  h.rest.all (by omega)

/-- A disk with an empty header restores what its home blocks hold. -/
theorem restores_of_empty {v : ℕ → Block} (hzero : disk logStart 0 = 0)
    (h : ∀ b ∈ Home, disk b = v b) : Restores disk v where
  room := by
    rw [hzero]
    decide
  entry := by
    intro j hj
    omega
  rest := settled_of_eq h _ _ _

/-- Booting from a disk that restores the latest commit. -/
theorem inv_boot (hrestores : Restores disk a.latest)
    (hsources : ∀ b ∈ Home, ∃ v ∈ a.committed, disk b = v b) (hcommitted : Committed a) :
    Inv (boot disk) a where
  cache := by
    refine ⟨?_, ?_, ?_⟩
    · intro i j b hi
      simp [Caches, boot] at hi
    · intro k b hk
      simp [Caches, boot] at hk
    · intro p k hk
      simp [Edits, boot] at hk
  ops := by
    refine ⟨⟨[], List.nodup_nil, rfl, ?_⟩, fun _ _ => rfl⟩
    intro p
    simp [boot]
  log := by
    refine ⟨?_, ?_, ?_, ?_, ?_, ?_⟩
    · intro j hj
      simp [boot] at hj
    · intro hjob
      exact absurd rfl hjob
    · intro k hk
      simp [boot] at hk
    all_goals
      intro hrecovering
      simp [boot] at hrecovering
  job := ⟨rfl, rfl, hcommitted⟩
  restores := hrestores
  sources := hsources

/-- A state that differs in who holds which buffer, and in what is not about the
cache. -/
structure SameCache (s s' : State) : Prop where
  disk : s'.disk = s.disk
  caches : ∀ k, (s'.buf k).blockno = (s.buf k).blockno
  data : ∀ k, (s'.buf k).data = (s.buf k).data
  dirty : ∀ k, (s'.buf k).dirty = (s.buf k).dirty
  /-- The same processes change the same buffers. -/
  edits : ∀ p k, Edits s' p k ↔ Edits s p k

/-- The cache stays consistent while whoever changes a buffer keeps it. -/
theorem CacheOk.frame {s' : State} (h : CacheOk s) (hsame : SameCache s s')
    (hholder : ∀ p k, Edits s p k → (s'.buf k).holder = some p) : CacheOk s' := by
  refine ⟨?_, ?_, ?_⟩
  · intro i j b hi hj
    unfold Caches at hi hj
    rw [hsame.caches] at hi hj
    exact h.unique i j b hi hj
  · intro k b hk hclean hedits
    unfold Caches at hk
    rw [hsame.caches] at hk
    rw [hsame.dirty] at hclean
    rw [hsame.data, hsame.disk]
    apply h.clean k b hk hclean
    intro p hp
    exact hedits p ((hsame.edits p k).mpr hp)
  · intro p k hp
    have hp' := (hsame.edits p k).mp hp
    obtain ⟨-, b, hk, hb⟩ := h.edits p k hp'
    refine ⟨hholder p k hp', b, ?_, hb⟩
    unfold Caches
    rw [hsame.caches]
    exact hk

/-- The log stays consistent with an unchanged cache. -/
theorem LogOk.frame {s' : State} {cur : ℕ → Block} (h : LogOk s cur) (hsame : SameCache s s')
    (hlh : s'.lh = s.lh) (hrecovering : s'.recovering = s.recovering)
    (hinstalled : installed s' = installed s) (hjob : s.job ≠ .readHead ∨ s'.job = s.job) :
    LogOk s' cur := by
  have hcaches : ∀ k b, Caches s' k b ↔ Caches s k b := by
    intro k b
    unfold Caches
    rw [hsame.caches]
  refine ⟨?_, ?_, ?_, ?_, ?_, ?_⟩
  · rw [hlh]
    exact h.home
  · intro hnot
    rw [hlh, hinstalled, hsame.disk]
    apply h.settled
    rcases hjob with hold | hold
    · exact hold
    · rwa [hold] at hnot
  · intro k hk
    rw [hsame.dirty] at hk
    obtain ⟨hrec, j, hj⟩ := h.dirty k hk
    rw [hlh, hinstalled, hrecovering]
    exact ⟨hrec, j, hj.1, hj.2.1, (hcaches _ _).mpr hj.2.2⟩
  · intro hrec j hlow hhigh
    rw [hlh, hinstalled, hrecovering] at *
    obtain ⟨k, hk, hdirty⟩ := h.pinned hrec j hlow hhigh
    exact ⟨k, (hcaches _ _).mpr hk, by rw [hsame.dirty, hdirty]⟩
  · intro hrec
    rw [hlh]
    exact h.distinct (hrecovering ▸ hrec)
  · intro hrec k b hk hb hedits
    rw [hsame.data]
    apply h.view (hrecovering ▸ hrec) k b ((hcaches _ _).mp hk) hb
    intro p hp
    exact hedits p ((hsame.edits p k).mpr hp)

/-- A buffer that is not locked is not being changed. -/
theorem CacheOk.not_edits_of_free (h : CacheOk s)
    (hfree : (s.buf k).holder = none) (p : ℕ) : ¬ Edits s p k := by
  intro hp
  have hholder := (h.edits p k hp).1
  rw [hfree] at hholder
  simp at hholder

/-- Locking and unlocking a buffer that no one is changing. -/
theorem Inv.hold (h : Inv s a) (holder : Option ℕ) (hfree : ∀ p, ¬ Edits s p k) :
    Inv { s with buf := update s.buf k { s.buf k with holder := holder } } a := by
  have hsame : SameCache s
      { s with buf := update s.buf k { s.buf k with holder := holder } } := by
    refine ⟨rfl, ?_, ?_, ?_, fun _ _ => Iff.rfl⟩
    all_goals
      intro i
      by_cases hi : i = k
      · subst i
        simp
      · simp [hi]
  refine ⟨h.cache.frame hsame ?_, ⟨h.ops.active, h.ops.quiet⟩,
    h.log.frame hsame rfl rfl rfl (.inr rfl), h.job, h.restores, h.sources⟩
  intro p i hp
  have hi : i ≠ k := by
    rintro rfl
    exact hfree p hp
  simp only [update_of_ne hi]
  exact (h.cache.edits p i hp).1

/-- A home block that no buffer caches is current on the disk. -/
theorem Inv.disk_eq_current (h : Inv s a)
    (hrecovering : s.recovering = false) (hb : b ∈ Home) (huncached : ∀ i, ¬ Caches s i b) :
    s.disk b = a.current b := by
  have hjob : s.job ≠ .readHead := by
    intro hjob
    have hok := h.job
    simp [JobOk, hjob, hrecovering] at hok
  apply h.log.settled hjob b hb
  rintro j hlow hhigh rfl
  obtain ⟨k, hk, -⟩ := h.log.pinned hrecovering j hlow hhigh
  exact huncached k hk

/-- Recycling a clean buffer for a block that is not cached. -/
theorem Inv.recycle (h : Inv s a)
    (holder : Option ℕ) (hfree : ∀ p, ¬ Edits s p k) (huncached : ∀ i, ¬ Caches s i b)
    (hclean : (s.buf k).dirty = false) :
    Inv { s with buf := update s.buf k ⟨some b, s.disk b, false, holder⟩ } a := by
  set s' : State := { s with buf := update s.buf k ⟨some b, s.disk b, false, holder⟩ }
  have hself : s'.buf k = ⟨some b, s.disk b, false, holder⟩ := update_self _ _ _
  have hother : ∀ {i}, i ≠ k → s'.buf i = s.buf i := fun hi => update_of_ne hi _ _
  have hdirty : ∀ i, (s'.buf i).dirty = true → i ≠ k ∧ (s.buf i).dirty = true := by
    intro i hi
    have hne : i ≠ k := by
      rintro rfl
      simp [hself] at hi
    rw [hother hne] at hi
    exact ⟨hne, hi⟩
  have hcaches : ∀ i c, Caches s' i c → (i = k ∧ c = b) ∨ (i ≠ k ∧ Caches s i c) := by
    intro i c hi
    by_cases hik : i = k
    · subst i
      unfold Caches at hi
      rw [hself] at hi
      exact .inl ⟨rfl, (some.inj hi).symm⟩
    · unfold Caches at hi
      rw [hother hik] at hi
      exact .inr ⟨hik, hi⟩
  have hkeep : ∀ {i c}, i ≠ k → Caches s i c → Caches s' i c := by
    intro i c hik hi
    unfold Caches
    rw [hother hik]
    exact hi
  refine ⟨⟨?_, ?_, ?_⟩, ⟨h.ops.active, h.ops.quiet⟩, ⟨h.log.home, h.log.settled, ?_, ?_,
    h.log.distinct, ?_⟩, h.job, h.restores, h.sources⟩
  · intro i j c hi hj
    rcases hcaches i c hi with ⟨rfl, rfl⟩ | ⟨-, hold⟩
    · rcases hcaches j c hj with ⟨rfl, -⟩ | ⟨-, hold⟩
      · rfl
      · exact absurd hold (huncached j)
    · rcases hcaches j c hj with ⟨rfl, rfl⟩ | ⟨-, hold'⟩
      · exact absurd hold (huncached i)
      · exact h.cache.unique i j c hold hold'
  · intro i c hi hdirty hedits
    rcases hcaches i c hi with ⟨rfl, rfl⟩ | ⟨hik, hi⟩
    · rw [hself]
    · rw [hother hik] at hdirty ⊢
      exact h.cache.clean i c hi hdirty hedits
  · intro p i hp
    have hik : i ≠ k := by
      rintro rfl
      exact hfree p hp
    obtain ⟨hholder, c, hi, hc⟩ := h.cache.edits p i hp
    rw [hother hik]
    exact ⟨hholder, c, hkeep hik hi, hc⟩
  · intro i hi
    obtain ⟨hik, hi⟩ := hdirty i hi
    obtain ⟨hrec, j, hlow, hhigh, hj⟩ := h.log.dirty i hi
    exact ⟨hrec, j, hlow, hhigh, hkeep hik hj⟩
  · intro hrec j hlow hhigh
    obtain ⟨i, hi, hidirty⟩ := h.log.pinned hrec j hlow hhigh
    have hik : i ≠ k := by
      rintro rfl
      rw [hclean] at hidirty
      simp at hidirty
    refine ⟨i, hkeep hik hi, ?_⟩
    rw [hother hik]
    exact hidirty
  · intro hrec i c hi hc hedits
    rcases hcaches i c hi with ⟨rfl, rfl⟩ | ⟨hik, hi⟩
    · rw [hself]
      exact h.disk_eq_current hrec hc huncached
    · rw [hother hik]
      exact h.log.view hrec i c hi hc hedits

theorem Inv.bread (h : Inv s a)
    (hstep : Log.bread s p k b = some t) : Inv t a := by
  unfold Log.bread at hstep
  split_ifs at hstep with hheld hcached hmissing
  · cases hstep
    exact h.hold _ (h.cache.not_edits_of_free (not_not.mp hheld))
  · cases hstep
    rw [not_or, not_exists, Bool.not_eq_true] at hmissing
    exact h.recycle _ (h.cache.not_edits_of_free (not_not.mp hheld)) hmissing.1 hmissing.2

theorem Inv.brelse (h : Inv s a)
    (hstep : Log.brelse s p k = some t) : Inv t a := by
  unfold Log.brelse at hstep
  split_ifs at hstep with hguard
  cases hstep
  obtain ⟨hholder, hphase⟩ := hguard
  apply h.hold
  intro q hq
  have hq' := (h.cache.edits q k hq).1
  rw [hholder, some.injEq] at hq'
  subst q
  unfold Edits at hq
  rcases hphase with hout | hrunning
  · simp [hout] at hq
  · simp [hrunning] at hq

/-- The system calls in progress after one has begun. -/
theorem OpsOk.begin (h : OpsOk s) (hp : s.phase p = .out) (hjob : s.job = .idle) :
    OpsOk { s with
      outstanding := s.outstanding + 1, phase := update s.phase p .running } := by
  obtain ⟨ps, hnodup, hlen, hmem⟩ := h.active
  have hnot : p ∉ ps := fun hps => (hmem p).mp hps hp
  refine ⟨⟨p :: ps, List.nodup_cons.mpr ⟨hnot, hnodup⟩, by simp [hlen], ?_⟩, ?_⟩
  · intro q
    by_cases hq : q = p
    · subst q
      simp
    · simp [hq, hmem]
  · intro hnot
    exact absurd hjob hnot

/-- The system calls in progress after one has ended. -/
theorem OpsOk.finish (h : OpsOk s) (hp : s.phase p = .running) :
    ∃ ps : List ℕ, ps.Nodup ∧ ps.length = s.outstanding - 1 ∧
      ∀ q, q ∈ ps ↔ update s.phase p .out q ≠ .out := by
  obtain ⟨ps, hnodup, hlen, hmem⟩ := h.active
  have hps : p ∈ ps := (hmem p).mpr (by simp [hp])
  refine ⟨ps.erase p, hnodup.erase p, by rw [List.length_erase_of_mem hps, hlen], ?_⟩
  intro q
  rw [hnodup.mem_erase_iff, hmem]
  by_cases hq : q = p
  · subst q
    simp
  · simp [hq]

/-- A change of phase that is not about `log_write`. -/
theorem edits_update (phase : Phase) (hold : ∀ k, ¬ Edits s p k)
    (hnew : ∀ k, phase ≠ .editing k ∧ phase ≠ .checked k) (q : ℕ) (k : Fin nbuf) :
    (update s.phase p phase q = .editing k ∨ update s.phase p phase q = .checked k) ↔
      Edits s q k := by
  by_cases hq : q = p
  · subst q
    simp [hnew k, hold k]
  · simp [hq, Edits]

/-- Without a commit or a recovery going on the job is idle. -/
theorem Inv.idle (h : Inv s a) (hrecovering : s.recovering = false)
    (hcommitting : s.committing = false) : s.job = .idle := by
  have hjob := h.job
  unfold JobOk at hjob
  split at hjob
  · assumption
  all_goals simp [hrecovering, hcommitting] at hjob

theorem OpsOk.idle (h : OpsOk s) (hp : s.phase p ≠ .out) : s.job = .idle := by
  by_contra hjob
  exact hp (h.quiet hjob p)

theorem Inv.beginOp (h : Inv s a)
    (hstep : Log.beginOp s p = some t) : Inv t a := by
  unfold Log.beginOp at hstep
  split_ifs at hstep with hguard hcommitting hroom
  cases hstep
  rw [not_or, not_not, Bool.not_eq_true] at hguard
  rw [Bool.not_eq_true] at hcommitting
  have hjob := h.idle hguard.2 hcommitting
  have hedits := edits_update (s := s) (p := p) .running
    (fun k hk => by simp [Edits, hguard.1] at hk) (fun k => by simp)
  have hsame : SameCache s { s with
      outstanding := s.outstanding + 1, phase := update s.phase p .running } :=
    ⟨rfl, fun _ => rfl, fun _ => rfl, fun _ => rfl, hedits⟩
  exact ⟨h.cache.frame hsame fun q k hq => (h.cache.edits q k hq).1, h.ops.begin hguard.1 hjob,
    h.log.frame hsame rfl rfl rfl (.inr rfl), h.job, h.restores, h.sources⟩

/-- The checks of `log_write` keep the invariant. -/
theorem Inv.check (h : Inv s a)
    (hstep : logWriteCheck s p = some t) : Inv t a := by
  unfold logWriteCheck at hstep
  split at hstep
  · next k hphase =>
    split_ifs at hstep with hroom hops
    cases hstep
    have hedits : ∀ q i, (update s.phase p (.checked k) q = .editing i ∨
        update s.phase p (.checked k) q = .checked i) ↔ Edits s q i := by
      intro q i
      by_cases hq : q = p
      · subst q
        simp [Edits, hphase]
      · simp [hq, Edits]
    have hsame : SameCache s { s with phase := update s.phase p (.checked k) } :=
      ⟨rfl, fun _ => rfl, fun _ => rfl, fun _ => rfl, hedits⟩
    obtain ⟨ps, hnodup, hlen, hmem⟩ := h.ops.active
    have hin : s.phase p ≠ .out := by simp [hphase]
    refine ⟨h.cache.frame hsame fun q k hq => (h.cache.edits q k hq).1,
      ⟨⟨ps, hnodup, hlen, ?_⟩, ?_⟩, h.log.frame hsame rfl rfl rfl (.inr rfl), h.job, h.restores,
      h.sources⟩
    · intro q
      by_cases hq : q = p
      · subst q
        simp [hmem, hin]
      · simp [hq, hmem]
    · intro hjob
      exact absurd (h.ops.idle hin) hjob
  · simp at hstep

/-- A process leaves its system call, and its commit begins if it was the last. -/
theorem Inv.leave (h : Inv s a) {worker : ℕ} {committing : Bool}
    {job : Job} (hphase : s.phase p = .running) (hjob : job = .idle ∨ job = .writeLog 0 ∨ job = .done)
    (hlast : job ≠ .idle → s.outstanding - 1 = 0)
    (hok : JobOk { s with
      outstanding := s.outstanding - 1, committing := committing,
      phase := update s.phase p .out, job := job, worker := worker } a) :
    Inv { s with
      outstanding := s.outstanding - 1, committing := committing,
      phase := update s.phase p .out, job := job, worker := worker } a := by
  have hidle : s.job = .idle := by
    apply h.ops.idle (p := p)
    simp [hphase]
  obtain ⟨ps, hnodup, hlen, hmem⟩ := h.ops.finish hphase
  have hedits := edits_update (s := s) (p := p) .out
    (fun k hk => by simp [Edits, hphase] at hk) (fun k => by simp)
  have hsame : SameCache s { s with
      outstanding := s.outstanding - 1, committing := committing,
      phase := update s.phase p .out, job := job, worker := worker } :=
    ⟨rfl, fun _ => rfl, fun _ => rfl, fun _ => rfl, hedits⟩
  have hinstalled : installed { s with
      outstanding := s.outstanding - 1, committing := committing,
      phase := update s.phase p .out, job := job, worker := worker } = installed s := by
    rcases hjob with rfl | rfl | rfl <;> simp [installed, hidle]
  refine ⟨h.cache.frame hsame fun q k hq => (h.cache.edits q k hq).1, ⟨⟨ps, hnodup, hlen, hmem⟩, ?_⟩,
    h.log.frame hsame rfl rfl hinstalled (.inl (by simp [hidle])), hok, h.restores, h.sources⟩
  intro hbusy q
  have hnil : ps = [] := List.eq_nil_of_length_eq_zero (hlen.trans (hlast hbusy))
  by_contra hq
  have hmem' := (hmem q).mpr hq
  simp [hnil] at hmem'

theorem Inv.endOp (h : Inv s a)
    (hstep : Log.endOp s p = some t) : Inv t a := by
  unfold Log.endOp at hstep
  by_cases hguard : s.phase p ≠ .running ∨ s.committing = true
  · rw [if_pos hguard] at hstep
    simp at hstep
  · rw [if_neg hguard] at hstep
    rw [not_or, not_not, Bool.not_eq_true] at hguard
    obtain ⟨hphase, hcommitting⟩ := hguard
    have hidle : s.job = .idle := by
      apply h.ops.idle (p := p)
      simp [hphase]
    have hok := h.job
    simp only [JobOk, hidle] at hok
    obtain ⟨hrecovering, -, hempty⟩ := hok
    have hsettled := h.log.settled (by simp [hidle])
    by_cases hlast : s.outstanding - 1 = 0
    · rw [if_pos hlast] at hstep
      cases hstep
      by_cases hlogged : 0 < s.lh.n
      · rw [if_pos hlogged]
        refine h.leave hphase (.inr (.inl rfl)) (fun _ => hlast) ?_
        refine ⟨hrecovering, rfl, hempty, hlogged, ?_, ?_⟩
        · intro hpos
          omega
        · intro j _ hj
          omega
      · rw [if_neg hlogged]
        refine h.leave hphase (.inr (.inr rfl)) (fun _ => hlast) ?_
        refine ⟨.inr rfl, hempty, by simp only; omega, ?_⟩
        intro b hb
        rw [← hsettled.all (by omega) b hb, h.restores.home_eq hempty b hb]
    · rw [if_neg hlast] at hstep
      cases hstep
      exact h.leave hphase (.inl hidle) (fun hbusy => absurd hidle hbusy) h.job

/-- A change to a held buffer keeps the invariant. -/
theorem Inv.edit (h : Inv s a)
    {data : Block} (hstep : Log.edit s p k data = some t) : Inv t a := by
  unfold Log.edit at hstep
  split at hstep
  · simp at hstep
  · next b hb =>
    split_ifs at hstep with hguard
    obtain ⟨hphase, hholder, hhome⟩ := hguard
    have hin : s.phase p ≠ .out := by simp [hphase]
    have hidle := h.ops.idle hin
    set s' : State := { s with
      buf := update s.buf k { s.buf k with data := data }
      phase := update s.phase p (.editing k) }
    obtain rfl : s' = t := some.inj hstep
    have hcaches : ∀ i c, Caches s' i c ↔ Caches s i c := by
      intro i c
      by_cases hi : i = k
      · subst i
        simp [s', Caches]
      · simp [s', Caches, hi]
    have hdirty : ∀ i, (s'.buf i).dirty = (s.buf i).dirty ∧ (s'.buf i).holder = (s.buf i).holder := by
      intro i
      by_cases hi : i = k
      · subst i
        simp [s']
      · simp [s', hi]
    have hedits : ∀ q i, Edits s' q i ↔ Edits s q i ∨ (q = p ∧ i = k) := by
      intro q i
      by_cases hq : q = p
      · subst q
        simp [s', Edits, hphase, eq_comm]
      · simp [s', Edits, hq]
    -- a buffer that no one is changing is not the one of this step
    have hother : ∀ i, (∀ q, ¬ Edits s' q i) → (s'.buf i).data = (s.buf i).data ∧
        ∀ q, ¬ Edits s q i := by
      intro i hi
      have hik : i ≠ k := by
        rintro rfl
        exact hi p ((hedits p i).mpr (.inr ⟨rfl, rfl⟩))
      refine ⟨by simp [s', hik], ?_⟩
      intro q hq
      exact hi q ((hedits q i).mpr (.inl hq))
    refine ⟨⟨?_, ?_, ?_⟩, ⟨?_, fun hbusy => absurd hidle hbusy⟩, ⟨h.log.home, h.log.settled, ?_, ?_,
      h.log.distinct, ?_⟩, h.job, h.restores, h.sources⟩
    · intro i j c hi hj
      exact h.cache.unique i j c ((hcaches i c).mp hi) ((hcaches j c).mp hj)
    · intro i c hi hclean hfree
      obtain ⟨hdata, hfree⟩ := hother i hfree
      rw [(hdirty i).1] at hclean
      rw [hdata]
      exact h.cache.clean i c ((hcaches i c).mp hi) hclean hfree
    · intro q i hq
      rw [(hdirty i).2]
      rcases (hedits q i).mp hq with hold | ⟨rfl, rfl⟩
      · obtain ⟨hqholder, c, hc, hchome⟩ := h.cache.edits q i hold
        exact ⟨hqholder, c, (hcaches i c).mpr hc, hchome⟩
      · exact ⟨hholder, b, (hcaches i b).mpr hb, hhome⟩
    · obtain ⟨ps, hnodup, hlen, hmem⟩ := h.ops.active
      refine ⟨ps, hnodup, hlen, ?_⟩
      intro q
      by_cases hq : q = p
      · subst q
        simp [s', hmem, hin]
      · simp [s', hq, hmem]
    · intro i hi
      rw [(hdirty i).1] at hi
      obtain ⟨hrec, j, hlow, hhigh, hj⟩ := h.log.dirty i hi
      exact ⟨hrec, j, hlow, hhigh, (hcaches _ _).mpr hj⟩
    · intro hrec j hlow hhigh
      obtain ⟨i, hi, hpin⟩ := h.log.pinned hrec j hlow hhigh
      exact ⟨i, (hcaches _ _).mpr hi, by rw [(hdirty i).1, hpin]⟩
    · intro hrec i c hi hc hfree
      obtain ⟨hdata, hfree⟩ := hother i hfree
      rw [hdata]
      exact h.log.view hrec i c ((hcaches i c).mp hi) hc hfree

/-- What `log_write` records: nothing new for a block that is logged already, and
one entry at the end for any other. -/
theorem record_cases (lh : LogHeader) (b : ℕ) :
    ((∃ i < lh.n, lh.block i = b) ∧ (lh.record b).n = lh.n ∧ (lh.record b).block = lh.block) ∨
      ((∀ i < lh.n, lh.block i ≠ b) ∧ (lh.record b).n = lh.n + 1 ∧ (lh.record b).block lh.n = b ∧
        ∀ j < lh.n, (lh.record b).block j = lh.block j) := by
  cases hfind : (List.range lh.n).find? (fun i => lh.block i = b) with
  | some i =>
    have hi : i < lh.n := List.mem_range.mp (List.mem_of_find?_eq_some hfind)
    have hb : lh.block i = b := by simpa using List.find?_some hfind
    have habsorb : absorb lh b = i := by rw [absorb, hfind, getD_some]
    refine .inl ⟨⟨i, hi, hb⟩, ?_, ?_⟩
    · rw [LogHeader.record, habsorb, if_neg (by omega)]
    · have hself := update_eq_self i lh.block
      rw [hb] at hself
      rw [LogHeader.record, habsorb, hself]
  | none =>
    have hnew : ∀ i < lh.n, lh.block i ≠ b := by
      intro i hi
      simpa using List.find?_eq_none.mp hfind i (List.mem_range.mpr hi)
    have habsorb : absorb lh b = lh.n := by rw [absorb, hfind, getD_none]
    refine .inr ⟨hnew, ?_, ?_, ?_⟩
    · rw [LogHeader.record, habsorb, if_pos rfl]
    · simp only [LogHeader.record, habsorb, update_self]
    · intro j hj
      simp only [LogHeader.record, habsorb]
      exact update_of_ne (by omega) _ _

/-- The entries of the header after `log_write`: the old ones, and one for the
block. -/
theorem record_spec (lh : LogHeader) (b : ℕ) :
    lh.n ≤ (lh.record b).n ∧ (∀ j < lh.n, (lh.record b).block j = lh.block j) ∧
      (∃ j < (lh.record b).n, (lh.record b).block j = b) ∧
      ∀ j < (lh.record b).n, (lh.record b).block j = b ∨ j < lh.n := by
  rcases record_cases lh b with ⟨⟨i, hi, hb⟩, hn, hblock⟩ | ⟨-, hn, hlast, hblock⟩
  · rw [hn, hblock]
    exact ⟨le_refl _, fun _ _ => rfl, ⟨i, hi, hb⟩, fun j hj => .inr hj⟩
  · rw [hn]
    refine ⟨by omega, hblock, ⟨lh.n, by omega, hlast⟩, ?_⟩
    intro j hj
    rcases Nat.lt_or_ge j lh.n with hlt | hge
    · exact .inr hlt
    · obtain rfl : j = lh.n := by omega
      exact .inl hlast

/-- No block is logged twice by `log_write`. -/
theorem record_distinct {lh : LogHeader} (b : ℕ)
    (h : ∀ i < lh.n, ∀ j < lh.n, lh.block i = lh.block j → i = j) :
    ∀ i < (lh.record b).n, ∀ j < (lh.record b).n,
      (lh.record b).block i = (lh.record b).block j → i = j := by
  rcases record_cases lh b with ⟨-, hn, hblock⟩ | ⟨hnew, hn, hlast, hblock⟩
  · rw [hn, hblock]
    exact h
  · rw [hn]
    intro i hi j hj heq
    rcases Nat.lt_or_ge i lh.n with hilt | hige
    · rcases Nat.lt_or_ge j lh.n with hjlt | hjge
      · rw [hblock i hilt, hblock j hjlt] at heq
        exact h i hilt j hjlt heq
      · obtain rfl : j = lh.n := by omega
        rw [hblock i hilt, hlast] at heq
        exact absurd heq (hnew i hilt)
    · obtain rfl : i = lh.n := by omega
      rcases Nat.lt_or_ge j lh.n with hjlt | hjge
      · rw [hblock j hjlt, hlast] at heq
        exact absurd heq.symm (hnew j hjlt)
      · omega

/-- The update of `log_write` keeps the invariant, and is a write to the store. -/
theorem Inv.record (h : Inv s a)
    (hstep : logWriteRecord s p = some t) : ∃ k b, s.phase p = .checked k ∧ Caches s k b ∧
      Inv t (a.apply (.write b (s.buf k).data)) := by
  unfold logWriteRecord at hstep
  split at hstep
  · next k hphase =>
    split at hstep
    · simp at hstep
    · next b hb =>
      refine ⟨k, b, hphase, hb, ?_⟩
      have hin : s.phase p ≠ .out := by simp [hphase]
      have hidle := h.ops.idle hin
      have hinstalled : installed s = 0 := by simp [installed, hidle]
      have hhome : b ∈ Home := by
        obtain ⟨-, c, hc, hchome⟩ := h.cache.edits p k (.inr hphase)
        obtain rfl : c = b := some.inj (hc.symm.trans hb)
        exact hchome
      obtain ⟨hle, hold, ⟨e, he, heb⟩, hentry⟩ := record_spec s.lh b
      set s' : State := { s with
        lh := s.lh.record b
        buf := update s.buf k { s.buf k with dirty := true }
        phase := update s.phase p .running }
      obtain rfl : s' = t := some.inj hstep
      have hinstalled' : installed s' = 0 := by simp [installed, s', hidle]
      have hbuf : ∀ i, (s'.buf i).blockno = (s.buf i).blockno ∧ (s'.buf i).data = (s.buf i).data ∧
          (s'.buf i).holder = (s.buf i).holder := by
        intro i
        by_cases hi : i = k
        · subst i
          simp [s']
        · simp [s', hi]
      have hcaches : ∀ i c, Caches s' i c ↔ Caches s i c := by
        intro i c
        unfold Caches
        rw [(hbuf i).1]
      have hdirtyk : (s'.buf k).dirty = true := by simp [s']
      have hdirty : ∀ i, i ≠ k → (s'.buf i).dirty = (s.buf i).dirty := by
        intro i hi
        simp [s', hi]
      have hedits : ∀ q i, Edits s' q i → Edits s q i := by
        intro q i hq
        by_cases hqp : q = p
        · subst q
          simp [s', Edits] at hq
        · simpa [s', Edits, hqp] using hq
      have hfree : ∀ i, i ≠ k → (∀ q, ¬ Edits s' q i) → ∀ q, ¬ Edits s q i := by
        intro i hi hnone q hq
        by_cases hqp : q = p
        · subst q
          simp [Edits, hphase] at hq
          exact hi hq.symm
        · exact hnone q (by simpa [s', Edits, hqp] using hq)
      have hne : ∀ i c, i ≠ k → Caches s i c → c ≠ b := by
        rintro i c hi hc rfl
        exact hi (h.cache.unique i k c hc hb)
      refine ⟨⟨?_, ?_, ?_⟩, ⟨?_, fun hbusy => absurd hidle hbusy⟩, ⟨?_, ?_, ?_, ?_, ?_, ?_⟩, ?_,
        h.restores, h.sources⟩
      · intro i j c hi hj
        exact h.cache.unique i j c ((hcaches i c).mp hi) ((hcaches j c).mp hj)
      · intro i c hi hclean hnone
        have hik : i ≠ k := by
          rintro rfl
          simp [hdirtyk] at hclean
        rw [hdirty i hik] at hclean
        rw [(hbuf i).2.1]
        exact h.cache.clean i c ((hcaches i c).mp hi) hclean (hfree i hik hnone)
      · intro q i hq
        obtain ⟨hholder, c, hc, hchome⟩ := h.cache.edits q i (hedits q i hq)
        rw [(hbuf i).2.2]
        exact ⟨hholder, c, (hcaches i c).mpr hc, hchome⟩
      · obtain ⟨ps, hnodup, hlen, hmem⟩ := h.ops.active
        refine ⟨ps, hnodup, hlen, ?_⟩
        intro q
        by_cases hq : q = p
        · subst q
          simp [s', hmem, hin]
        · simp [s', hq, hmem]
      · intro j hj
        rcases hentry j hj with hjb | hlt
        · change (s.lh.record b).block j ∈ Home
          rw [hjb]
          exact hhome
        · change (s.lh.record b).block j ∈ Home
          rw [hold j hlt]
          exact h.log.home j hlt
      · intro _
        have hsettled := h.log.settled (by simp [hidle])
        rw [hinstalled] at hsettled
        rw [hinstalled']
        exact hsettled.write hle hold ⟨e, Nat.zero_le e, he, heb⟩
      · intro i hi
        rw [hinstalled']
        refine ⟨?_, ?_⟩
        · have hok := h.job
          simp only [JobOk, hidle] at hok
          exact hok.1
        · by_cases hik : i = k
          · subst i
            exact ⟨e, Nat.zero_le e, he, (hcaches _ _).mpr (heb ▸ hb)⟩
          · rw [hdirty i hik] at hi
            obtain ⟨-, j, -, hhigh, hj⟩ := h.log.dirty i hi
            refine ⟨j, Nat.zero_le j, Nat.lt_of_lt_of_le hhigh hle, (hcaches _ _).mpr ?_⟩
            change Caches s i ((s.lh.record b).block j)
            rw [hold j hhigh]
            exact hj
      · intro hrec j _ hj
        rcases hentry j hj with hjb | hlt
        · exact ⟨k, (hcaches _ _).mpr (hjb ▸ hb), hdirtyk⟩
        · obtain ⟨i, hi, hpin⟩ := h.log.pinned hrec j (by omega) hlt
          refine ⟨i, (hcaches _ _).mpr ?_, ?_⟩
          · change Caches s i ((s.lh.record b).block j)
            rw [hold j hlt]
            exact hi
          · by_cases hik : i = k
            · rw [hik, hdirtyk]
            · rw [hdirty i hik, hpin]
      · intro hrec
        exact record_distinct b (h.log.distinct hrec)
      · intro hrec i c hi hc hnone
        have hi := (hcaches i c).mp hi
        rw [(hbuf i).2.1]
        by_cases hik : i = k
        · subst i
          obtain rfl : c = b := some.inj (hi.symm.trans hb)
          simp [Store.apply]
        · rw [h.log.view hrec i c hi hc (hfree i hik hnone)]
          exact (update_of_ne (hne i c hik hi) _ _).symm
      · have hok := h.job
        simp only [JobOk, hidle] at hok
        simp only [JobOk, s', hidle]
        exact hok
  · simp at hstep

/-- Logged blocks that are not installed pin different buffers. -/
theorem Inv.exists_pins (h : Inv s a) (hrec : s.recovering = false) (hinstalled : installed s = 0) :
    ∃ f : Fin s.lh.n → Fin nbuf, Function.Injective f ∧ ∀ j, Caches s (f j) (s.lh.block j) := by
  have hpin : ∀ j : Fin s.lh.n, ∃ i, Caches s i (s.lh.block j) := by
    intro j
    obtain ⟨i, hi, -⟩ := h.log.pinned hrec j (by omega) j.isLt
    exact ⟨i, hi⟩
  choose f hf using hpin
  refine ⟨f, ?_, hf⟩
  intro i j heq
  have hi := hf i
  rw [heq] at hi
  have hblock : s.lh.block i = s.lh.block j := some.inj (hi.symm.trans (hf j))
  exact Fin.ext (h.log.distinct hrec i i.isLt j j.isLt hblock)

/-- A cached block that is not logged leaves one buffer less for those that are. -/
theorem Inv.room (h : Inv s a) (hrec : s.recovering = false)
    (hinstalled : installed s = 0) (hk : Caches s k b)
    (hb : ∀ j < s.lh.n, s.lh.block j ≠ b) : s.lh.n < nbuf := by
  obtain ⟨f, hinj, hf⟩ := h.exists_pins hrec hinstalled
  have hother : ∀ j, f j ≠ k := by
    intro j hj
    have hpin := hf j
    rw [hj] at hpin
    exact hb j j.isLt (some.inj (hpin.symm.trans hk))
  have hcard := Fintype.card_le_of_injective (fun o : Option (Fin s.lh.n) => o.elim k f) (by
    rintro (_ | i) (_ | j) heq
    · rfl
    · exact absurd (Eq.symm heq) (hother j)
    · exact absurd heq (hother i)
    · exact congrArg some (hinj heq))
  rw [Fintype.card_option, Fintype.card_fin, Fintype.card_fin] at hcard
  omega

end Xv6Draw.Log
