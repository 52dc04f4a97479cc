import Xv6Draw.Fs.Call
import Xv6Draw.Fs.Lookup

/-!
# Calls that fail

What `open`, `link`, `unlink`, `mkdir`, `mknod` and `chdir` leave behind when they return -1.

A search for a file takes references and gives them up again. The calls that fail before they have changed a file therefore leave the files and the
reference counts as they were, and `link` takes the link count back that it has raised. `open`
alone makes a file before its last possible failure.
-/

namespace Xv6Draw.Fs

open Function Hoare Option

/-! ### The calls -/

/-- The path names a file in a directory that has no entry for it. -/
def Missing (v : View) (cwd : Fin ninode) (path : Name) : Prop :=
  ∃ i name nd, Leads (· = v.vol) true (v.start cwd path) path (some (i, name)) ∧
    v.vol i = some nd ∧ nd.lookup name = none

/-- A new inode with a link. -/
def Made (v₀ : View) (ip : Fin ninode) (v : View) : Prop :=
  0 < v.ref ip ∧ v₀.vol (v.inum ip) = none ∧ ∃ nd, v.vol (v.inum ip) = some nd ∧ nd.nlink ≠ 0

section

variable {s : State} {cwd : Fin ninode} {v₀ : View}

theorem any_panic {P : Prop} : MayPanic (fun _ => True) ∨ P := .inl fun _ _ => trivial

variable {path name : Name} {nd : Node} {x : Fin ninode → ℕ} {k dp ip : Fin ninode}
  {Q : Unit → State → Prop} {type major minor : BitVec 16} {v : View}

/-- The entry that a path leads to is not missing. -/
theorem not_missing_of_lookup {i j off : ℕ}
    (hleads : Leads (· = v₀.vol) true (v₀.start cwd path) path (some (i, name)))
    (hnode : v₀.vol i = some nd) (hfound : nd.lookup name = some (j, off)) : ¬ Missing v₀ cwd path := by
  rintro ⟨i', name', nd', hleads', hnode', hmiss⟩
  obtain ⟨rfl, rfl⟩ := Prod.mk.inj (some.inj (hleads.unique hleads'))
  obtain rfl := some.inj (hnode.symm.trans hnode')
  exact nomatch hfound.symm.trans hmiss

theorem not_missing_of_none
    (hleads : Leads (· = v₀.vol) true (v₀.start cwd path) path none) : ¬ Missing v₀ cwd path := by
  rintro ⟨i, name, nd, hleads', -⟩
  exact nomatch hleads.unique hleads'

theorem Holds.wp_iunlockput (hg : Good s) (h : Holds v₀ (x + Pi.single k 1) (view s))
    (hQ : ∀ s', Good s' → Holds v₀ x (view s') → Q () s') :
    wp (iunlockput k) (fun _ => True) Q s := by
  exact hg.wp_iunlockput any_panic h.ref_pos fun s' hg' hput _ => hQ s' hg' (h.put hg.sound hput)

theorem Holds.wp_iput (hg : Good s) (h : Holds v₀ (x + Pi.single k 1) (view s))
    (hQ : ∀ s', Good s' → Holds v₀ x (view s') → Q () s') : wp (iput k) (fun _ => True) Q s := by
  exact hg.wp_iput h.ref_pos fun s' hg' hput _ => hQ s' hg' (h.put hg.sound hput)

theorem Holds.wp_ilock (hg : Good s) (h : Holds v₀ x (view s))
    (hQ : ∀ s', Good s' → Holds v₀ x (view s') → (view s').valid k = true →
      (view s').inum = (view s).inum → Q () s') : wp (ilock k) (fun _ => True) Q s := by
  refine hg.wp_ilock any_panic fun s' hg' hview _ _ _ _ => hQ s' hg' ?_ ?_ ?_
  · rw [hview]
    exact ⟨h.vol, h.ref, h.inum, h.kept⟩
  · simp [hview, View.lock]
  · rw [hview]
    rfl

variable (hg : Good s) (htree : (view s).Tree) (hcwd : 0 < (view s).ref cwd)

include hg htree hcwd in
theorem wp_namei {Q : Option (Fin ninode) → State → Prop}
    (hnone : ∀ s', Good s' → Holds (view s) 0 (view s') → Q none s')
    (hsome : ∀ k s', Good s' → Holds (view s) (0 + Pi.single k 1) (view s') → Q (some k) s') :
    wp (namei cwd path) (fun _ => True) Q s := by
  unfold namei
  refine wp_bind (wp_mono (hg.wp_namex htree hcwd any_panic) ?_)
  rintro (_ | ⟨k, name⟩) s' ⟨hs', -⟩
  · exact wp_pure (hnone s' hs'.good hs'.holds)
  · exact wp_pure (hsome k s' hs'.good hs'.holds)

include hg htree hcwd in
theorem wp_enter :
    wp (enter cwd path) (fun _ => True) (fun r s' => r = none → Holds (view s) 0 (view s')) s := by
  unfold enter
  refine wp_bind (wp_namei hg htree hcwd (fun s' _ h' => wp_pure fun _ => h') fun ip s₁ hg₁ h₁ => ?_)
  refine wp_bind (h₁.wp_ilock hg₁ fun s₂ hg₂ h₂ _ _ => wp_bind (wp_get ?_))
  refine wp_ite (fun _ => ?_) fun _ => ?_
  · exact wp_bind (h₂.wp_iunlockput hg₂ fun s₃ _ h₃ => wp_pure fun _ => h₃)
  · iterate 2 refine wp_skip fun _ _ => ?_
    exact wp_pure nofun

/-- `create` of an inode returns it, or panics. -/
theorem wp_createNew_ne_none :
    wp (createNew dp name type major minor) (fun _ => True) (fun r _ => r ≠ none) s := by
  unfold createNew
  refine wp_skip fun ip _ => ?_
  iterate 6 refine wp_skip fun _ _ => ?_
  refine wp_ite (fun _ => wp_throw trivial) fun _ => ?_
  refine wp_skip fun _ _ => ?_
  exact wp_pure nofun

/-- `create` of a file in a directory. -/
theorem wp_createNew_file
    (hat : At s dp nd) (h : Holds v₀ (0 + Pi.single dp 1) (view s)) (htree : v₀.Tree)
    (hmiss : nd.lookup name = none) :
    wp (createNew dp name tFile major minor) (fun _ => True)
      (fun r s' => ∀ ip, r = some ip → Good s' ∧ Made v₀ ip (view s')) s := by
  unfold createNew
  have hnode := hat.node
  refine wp_bind (hat.good.wp_ialloc (fun _ _ => trivial) (by decide)
    fun i ip s₁ hg₁ _ _ hfree hgot => ?_)
  have hdp : (view s).inum dp ≠ i := by
    intro heq
    rw [heq, hfree] at hnode
    cases hnode
  have hinum := hgot.inum
  have hvol₁ := hgot.vol
  have href₁ := hgot.ref
  -- the entry of the directory is another one
  have hdp₁ : (view s₁).inum dp = (view s).inum dp ∧ (view s₁).valid dp = (view s).valid dp := by
    obtain ⟨-, -, hw⟩ | ⟨hunused, -, hw⟩ := hgot
    · rw [hw]
      exact ⟨rfl, rfl⟩
    · have hne : dp ≠ ip := by
        rintro rfl
        have hpos := h.ref_pos
        simp only at hunused
        omega
      rw [hw]
      exact ⟨update_of_ne hne _ _, update_of_ne hne _ _⟩
  refine wp_bind (hg₁.wp_ilock any_panic fun s₂ hg₂ hview₂ _ hpos₂ _ _ => ?_)
  have hvalid₂ : (view s₂).valid ip = true := by simp [hview₂, View.lock]
  have hinum₂ : (view s₂).inum = (view s₁).inum := by rw [hview₂]; rfl
  have href₂ : (view s₂).ref = (view s₁).ref := by rw [hview₂]; rfl
  have hvol₂ : (view s₂).vol = (view s₁).vol := by rw [hview₂]; rfl
  refine (hg₂.at (by rw [href₂]; exact hpos₂) hvalid₂).wp_change
    (f := fun d => { d with major := major, minor := minor, nlink := 1 })
    (F := fun nd => { nd with major := major, minor := minor, nlink := 1 })
    (fun _ => rfl) (fun _ => rfl) (fun _ => rfl) (fun _ _ => rfl) fun s₃ hg₃ hview₃ => ?_
  have hinum₃ : (view s₃).inum = (view s₁).inum := by rw [hview₃, ← hinum₂]; rfl
  have href₃ : (view s₃).ref = (view s₁).ref := by rw [hview₃, ← href₂]; rfl
  have hvalid₃ : (view s₃).valid dp = true := by
    rw [hview₃]
    change (view s₂).valid dp = true
    rw [hview₂]
    exact View.valid_lock (hdp₁.2.trans hat.valid) ip
  have hvol₃ : (view s₃).vol = update (view s).vol i
      (some { Node.new tFile with major := major, minor := minor, nlink := 1 }) := by
    rw [hview₃, View.mapNode, hinum₂, hinum, hvol₂, hvol₁]
    simp
  refine wp_bind ?_
  unfold createDots
  rw [if_neg (by decide)]
  refine wp_pure (wp_bind (wp_get (wp_bind ?_)))
  have hpos₃ : 0 < (view s₃).ref dp := by
    have hpos := h.ref_pos
    rw [href₃, href₁]
    exact Nat.add_pos_left hpos _
  have hnode₃ : (view s₃).vol ((view s₃).inum dp) = some nd := by
    rw [hinum₃, hdp₁.1, hvol₃, update_of_ne hdp, hnode]
  have hnames : ∀ off j, nd.Names off j → j < ninodes := by
    intro off j hnames
    rw [h.vol] at hnode
    exact (htree.names (h.kept dp (by simp)) hnode hnames).1
  have hat₃ : At s₃ dp nd := ⟨hg₃, hpos₃, hvalid₃, hnode₃⟩
  unfold dirlink
  refine wp_bind (hat₃.wp_dirlookup any_panic hnames ?_ ?_)
  · intro _ _
    refine hat₃.wp_addEntry any_panic fun s₄ hg₄ _ _ hview₄ => ?_
    refine wp_ite (fun hneg => absurd hneg (by decide)) fun _ => ?_
    have hinum₄ : (view s₄).inum = (view s₁).inum := by rw [hview₄, ← hinum₃]; rfl
    have href₄ : (view s₄).ref = (view s₁).ref := by rw [hview₄, ← href₃]; rfl
    refine wp_bind (hg₄.wp_iunlockput any_panic (by rw [href₄, ← href₃]; exact hpos₃)
      fun s₅ hg₅ hput _ => wp_pure ?_)
    intro ip' hip
    obtain rfl := some.inj hip
    have hne : dp ≠ ip := by
      rintro rfl
      exact hdp (hdp₁.1.symm.trans hinum)
    have hinum₅ : (view s₅).inum ip = i := by rw [hput.inum_eq, hinum₄, hinum]
    refine ⟨hg₅, ?_, ?_, ?_⟩
    · have href₅ := congrFun hput.ref ip
      rw [href₄, href₁] at href₅
      simp only [Pi.add_apply, Pi.single_eq_same, Pi.single_eq_of_ne hne.symm] at href₅
      omega
    · rw [hinum₅, ← h.vol, hfree]
    · have hother : i ≠ (view s₄).inum dp := by
        rw [hinum₄, hdp₁.1]
        exact hdp.symm
      have hvol₄ : (view s₄).vol i = (view s₃).vol i := by
        rw [hview₄, View.mapNode]
        refine update_of_ne ?_ _ _
        rw [hinum₃, ← hinum₄]
        exact hother
      refine ⟨{ Node.new tFile with major := major, minor := minor, nlink := 1 }, ?_, by simp⟩
      rw [hinum₅, hput.vol_of_inum_ne hother, hvol₄, hvol₃, update_self]
  · intro j off _ _ hfound _ _ _ _
    cases hmiss.symm.trans hfound

/-- `create` of a name that is there. -/
theorem wp_createOld (hg : Good s) (h : Holds v₀ (0 + Pi.single dp 1 + Pi.single ip 1) (view s)) :
    wp (createOld dp ip type) (fun _ => True)
      (fun r s' => Good s' ∧ (r = none → Holds v₀ 0 (view s')) ∧
        ∀ k, r = some k → Holds v₀ (0 + Pi.single k 1) (view s')) s := by
  unfold createOld
  rw [add_right_comm] at h
  refine wp_bind (h.wp_iunlockput hg fun s₁ hg₁ h₁ => ?_)
  refine wp_bind (h₁.wp_ilock hg₁ fun s₂ hg₂ h₂ _ _ => wp_bind (wp_get ?_))
  refine wp_ite (fun _ => wp_pure ⟨hg₂, nofun, ?_⟩) fun _ => ?_
  · intro k hk
    obtain rfl := some.inj hk
    exact h₂
  · exact wp_bind (h₂.wp_iunlockput hg₂ fun s₃ hg₃ h₃ => wp_pure ⟨hg₃, fun _ => h₃, nofun⟩)

include hg htree hcwd in
/-- `create` up to the search in the directory: it fails, it finds the name, or it goes on to make
an inode. -/
theorem wp_create {Q : Option (Fin ninode) → State → Prop}
    (hnone : ∀ s', Good s' → Holds (view s) 0 (view s') → ¬ Missing (view s) cwd path → Q none s')
    (hold : ∀ k s', Good s' → Holds (view s) (0 + Pi.single k 1) (view s') →
      ¬ Missing (view s) cwd path → Q (some k) s')
    (hnew : ∀ dp name nd s', At s' dp nd → Holds (view s) (0 + Pi.single dp 1) (view s') →
      nd.lookup name = none → Missing (view s) cwd path →
      wp (createNew dp name type major minor) (fun _ => True) Q s') :
    wp (create cwd path type major minor) (fun _ => True) Q s := by
  unfold create nameiparent
  refine wp_bind (wp_mono (hg.wp_namex htree hcwd any_panic) ?_)
  rintro (_ | ⟨dp, name⟩) s₁ ⟨hs₁, -⟩
  · exact wp_pure (hnone s₁ hs₁.good hs₁.holds (not_missing_of_none hs₁.leads))
  · refine wp_bind (hs₁.holds.wp_ilock hs₁.good fun s₂ hg₂ h₂ hvalid hinum => ?_)
    have hleads := hs₁.leads
    simp only [map_some, ← hinum] at hleads
    have hat := hg₂.at h₂.ref_pos hvalid
    have hnode₀ := hat.node
    rw [h₂.vol] at hnode₀
    refine wp_bind (h₂.wp_dirlookup htree hat any_panic ?_ ?_)
    · intro hmiss
      exact hnew dp name _ s₂ hat h₂ hmiss ⟨_, name, _, hleads, hnode₀, hmiss⟩
    · intro i off ip s₃ hfound hg₃ _ h₃ _
      have hthere := not_missing_of_lookup hleads hnode₀ hfound
      refine wp_mono (wp_createOld hg₃ h₃) ?_
      rintro (_ | k) s' ⟨hg', hfail, hfile⟩
      · exact hnone s' hg' (hfail rfl) hthere
      · exact hold k s' hg' (hfile k rfl) hthere

include hg htree hcwd in
/-- `sys_mkdir` and `sys_mknod` fail. -/
theorem wp_make :
    wp (make cwd path type major minor) (fun _ => True)
      (fun r s' => r = -1 → Holds (view s) 0 (view s')) s := by
  unfold make
  refine wp_bind (wp_create hg htree hcwd ?_ ?_ ?_)
  · intro s' _ h' _
    exact wp_pure fun _ => h'
  · intro k s' _ _ _
    exact wp_skip fun _ _ => wp_pure nofun
  · intro dp name nd s' _ _ _ _
    refine wp_mono wp_createNew_ne_none ?_
    rintro (_ | ip) s'' hne
    · exact absurd rfl hne
    · exact wp_skip fun _ _ => wp_pure nofun

/-- `sys_unlink` of an entry that may go does not fail. -/
theorem wp_removeEntry {off : ℕ} :
    wp (removeEntry dp ip off) (fun _ => True) (fun r _ => r ≠ -1) s := by
  unfold removeEntry
  refine wp_skip fun _ _ => ?_
  refine wp_ite (fun _ => wp_throw trivial) fun _ => ?_
  iterate 5 refine wp_skip fun _ _ => ?_
  exact wp_pure nofun

theorem wp_inUse (h : At s ip nd) {Q : Bool → State → Prop} (hQ : ∀ b, Q b s) :
    wp (inUse ip) (fun _ => True) Q s := by
  unfold inUse
  refine wp_bind (wp_get (wp_ite (fun _ => ?_) fun _ => wp_pure (hQ _)))
  exact wp_bind (h.wp_isdirempty (fun _ _ => trivial) (wp_pure (hQ _)))

include hg htree hcwd in
theorem wp_unlink :
    wp (unlink cwd path) (fun _ => True) (fun r s' => r = -1 → Holds (view s) 0 (view s')) s := by
  unfold unlink nameiparent
  refine wp_bind (wp_mono (hg.wp_namex htree hcwd any_panic) ?_)
  rintro (_ | ⟨dp, name⟩) s₁ ⟨hs₁, -⟩
  · exact wp_pure fun _ => hs₁.holds
  · refine wp_bind (hs₁.holds.wp_ilock hs₁.good fun s₂ hg₂ h₂ hvalid _ => ?_)
    refine wp_ite (fun _ => ?_) fun _ => ?_
    · exact wp_bind (h₂.wp_iunlockput hg₂ fun s' _ h' => wp_pure fun _ => h')
    · refine wp_bind (h₂.wp_dirlookup htree (hg₂.at h₂.ref_pos hvalid) any_panic ?_ ?_)
      · intro _
        exact wp_bind (h₂.wp_iunlockput hg₂ fun s' _ h' => wp_pure fun _ => h')
      · intro _ off ip s₃ _ hg₃ _ h₃ _
        unfold unlinkEntry
        refine wp_bind (h₃.wp_ilock hg₃ fun s₄ hg₄ h₄ hvalid₄ _ => wp_bind (wp_get ?_))
        refine wp_ite (fun _ => wp_throw trivial) fun _ => ?_
        refine wp_bind (wp_inUse (hg₄.at h₄.ref_pos hvalid₄) fun b => wp_ite (fun _ => ?_) fun _ => ?_)
        · refine wp_bind (h₄.wp_iunlockput hg₄ fun s₅ hg₅ h₅ => ?_)
          exact wp_bind (h₅.wp_iunlockput hg₅ fun s' _ h' => wp_pure fun _ => h')
        · exact wp_mono wp_removeEntry fun r _ hne heq => absurd heq hne

/-! ### `link` -/

/-- One link more. -/
def Node.addLink (nd : Node) : Node := { nd with nlink := nd.nlink + 1 }

/-- One link less. -/
def Node.dropLink (nd : Node) : Node := { nd with nlink := nd.nlink - 1 }

theorem Node.dropLink_addLink (nd : Node) : nd.addLink.dropLink = nd := by
  unfold dropLink addLink
  rw [BitVec.add_sub_cancel]

/-- The files when `sys_link` has raised a link count. -/
theorem Holds.kept_addLink {j : ℕ} (h : Holds v₀ (0 + Pi.single ip 1) v) (hkept : v₀.Kept j) :
    (v.mapNode (v.inum ip) Node.addLink).Kept j := by
  by_cases hj : j = v.inum ip
  · exact .inr ⟨ip, h.ref_pos, hj.symm⟩
  · obtain hlinks | ⟨k, hk, hinum⟩ := hkept
    · refine .inl fun nd hnode => hlinks nd ?_
      rw [View.mapNode_vol_of_ne v hj, h.vol] at hnode
      exact hnode
    · refine .inr ⟨k, ?_, (h.inum k hk).trans hinum⟩
      change 0 < v.ref k
      rw [h.ref]
      exact Nat.add_pos_left hk _

/-- The tree when `sys_link` has raised the link count of a file that is no directory. -/
theorem Holds.tree_addLink (htree : v₀.Tree)
    (h : Holds v₀ (0 + Pi.single ip 1) v) (hnode : v.vol (v.inum ip) = some nd)
    (htype : nd.type ≠ tDir) : (v.mapNode (v.inum ip) Node.addLink).Tree := by
  refine ⟨h.kept_addLink htree.root, ?_⟩
  intro j nd' off l hkept hnode' hnames
  have hj : j ≠ v.inum ip := by
    rintro rfl
    rw [View.mapNode_vol_self, hnode, map_some, some.injEq] at hnode'
    subst hnode'
    exact htype hnames.dir
  rw [View.mapNode_vol_of_ne v hj, h.vol] at hnode'
  have hkept' : v₀.Kept j := by
    obtain hlinks | ⟨k, hk, hinum⟩ := hkept
    · refine .inl fun nd'' hnode'' => hlinks nd'' ?_
      rw [View.mapNode_vol_of_ne v hj, h.vol]
      exact hnode''
    · change v.inum k = j at hinum
      change 0 < v.ref k at hk
      have hne : k ≠ ip := by
        rintro rfl
        exact hj hinum.symm
      rw [h.ref] at hk
      have hk₀ : 0 < v₀.ref k := by simpa [hne] using hk
      exact .inr ⟨k, hk₀, (h.inum k hk₀).symm.trans hinum⟩
  obtain ⟨hrange, hl⟩ := htree.names hkept' hnode' hnames
  exact ⟨hrange, h.kept_addLink hl⟩

/-- `sys_link` takes the link count back. -/
theorem wp_linkBad (hg : Good s) (h : Holds v₀ (0 + Pi.single ip 1) v)
    (h₁ : Holds (v.mapNode (v.inum ip) Node.addLink) 0 (view s)) :
    wp (linkBad ip) (fun _ => True) (fun _ s' => Holds v₀ 0 (view s')) s := by
  unfold linkBad
  refine wp_bind (h₁.wp_ilock hg fun s₁ hg₁ h₂ hvalid _ => ?_)
  have href₁ : (view s₁).ref = v₀.ref + (0 + Pi.single ip 1) := by
    rw [h₂.ref, ← h.ref, add_zero]
    rfl
  have hpos : 0 < (view s₁).ref ip := by
    rw [href₁]
    simp only [Pi.add_apply, Pi.single_eq_same]
    omega
  have hinum₁ : ∀ k, 0 < v.ref k → (view s₁).inum k = v.inum k := fun k hk => h₂.inum k hk
  refine (hg₁.at hpos hvalid).wp_change (f := fun d => { d with nlink := d.nlink - 1 })
    (F := Node.dropLink) (fun _ => rfl) (fun _ => rfl) (fun _ => rfl) (fun _ _ => rfl)
    fun s₂ hg₂ hview₂ => ?_
  have h₃ : Holds v₀ (0 + Pi.single ip 1) (view s₂) := by
    rw [hview₂]
    refine ⟨?_, href₁, ?_, ?_⟩
    · funext j
      have hsame : Node.dropLink ∘ Node.addLink = id := funext Node.dropLink_addLink
      by_cases hj : j = v.inum ip
      · rw [hinum₁ ip h.ref_pos, hj, View.mapNode_vol_self, h₂.vol, View.mapNode_vol_self,
          map_map, hsame, map_id, id, h.vol]
      · rw [hinum₁ ip h.ref_pos, View.mapNode_vol_of_ne _ hj, h₂.vol, View.mapNode_vol_of_ne _ hj,
          h.vol]
    · intro k hk
      have hvk : 0 < v.ref k := by
        rw [h.ref]
        exact Nat.add_pos_left hk _
      exact (hinum₁ k hvk).trans (h.inum k hk)
    · intro k hk
      have hkip : k = ip := by
        by_contra hne
        simp [hne] at hk
      rw [hkip]
      change v₀.Kept ((view s₁).inum ip)
      rw [hinum₁ ip h.ref_pos]
      exact h.kept ip (by simp)
  exact wp_bind (h₃.wp_iunlockput hg₂ fun s' _ h' => wp_pure h')

/-- `dirlink` behind its check of the name does not fail. -/
theorem wp_addEntry_zero {i : ℕ} :
    wp (addEntry dp name i) (fun _ => True) (fun r _ => r = 0) s := by
  unfold addEntry
  iterate 3 refine wp_skip fun _ _ => ?_
  exact wp_ite (fun _ => wp_throw trivial) fun _ => wp_pure rfl

/-- `sys_link` from the link count on fails. -/
theorem wp_linkNew {new : Name} (hat : At s ip nd)
    (htree : v₀.Tree) (hcwd : 0 < v₀.ref cwd) (h : Holds v₀ (0 + Pi.single ip 1) (view s))
    (htype : nd.type ≠ tDir) :
    wp (linkNew cwd ip new) (fun _ => True) (fun r s' => r = -1 → Holds v₀ 0 (view s')) s := by
  unfold linkNew
  refine hat.wp_change (f := fun d => { d with nlink := d.nlink + 1 })
    (F := Node.addLink) (fun _ => rfl) (fun _ => rfl) (fun _ => rfl) (fun _ _ => rfl)
    fun s₁ hg₁ hview₁ => ?_
  refine wp_bind (hg₁.wp_iunlock any_panic fun s₂ hg₂ hview₂ _ => ?_)
  rw [hview₁] at hview₂
  have htree₂ : (view s₂).Tree := hview₂ ▸ h.tree_addLink htree hat.node htype
  have hcwd₂ : 0 < (view s₂).ref cwd := by
    rw [hview₂]
    change 0 < (view s).ref cwd
    rw [h.ref]
    exact Nat.add_pos_left hcwd _
  have hbad : ∀ s', Good s' → Holds (view s₂) 0 (view s') →
      wp (linkBad ip) (fun _ => True) (fun r s' => r = -1 → Holds v₀ 0 (view s')) s' := by
    intro s' hg' h'
    rw [hview₂] at h'
    exact wp_mono (wp_linkBad hg' h h') fun _ _ hdone _ => hdone
  unfold nameiparent
  refine wp_bind (wp_mono (hg₂.wp_namex htree₂ hcwd₂ any_panic) ?_)
  rintro (_ | ⟨dp, name⟩) s₃ ⟨hs₃, -⟩
  · exact hbad s₃ hs₃.good hs₃.holds
  · refine wp_bind (hs₃.holds.wp_ilock hs₃.good fun s₄ hg₄ h₄ hvalid₄ _ =>
      wp_bind (wp_get (wp_bind ?_)))
    unfold dirlink
    refine wp_bind (h₄.wp_dirlookup htree₂ (hg₄.at h₄.ref_pos hvalid₄) any_panic ?_ ?_)
    · intro _
      refine wp_mono wp_addEntry_zero ?_
      rintro r s₅ rfl
      refine wp_skip fun _ _ => ?_
      refine wp_ite (fun hneg => absurd hneg (by decide)) fun _ => ?_
      exact wp_skip fun _ _ => wp_pure nofun
    · intro _ _ ip' s₅ _ hg₅ _ h₅ _
      refine wp_bind (h₅.wp_iput hg₅ fun s₆ hg₆ h₆ => wp_pure ?_)
      refine wp_bind (h₆.wp_iunlockput hg₆ fun s₇ hg₇ h₇ => ?_)
      exact wp_ite (fun _ => hbad s₇ hg₇ h₇) fun hneg => absurd (by decide) hneg

include hg htree hcwd in
theorem wp_link {old new : Name} :
    wp (link cwd old new) (fun _ => True) (fun r s' => r = -1 → Holds (view s) 0 (view s')) s := by
  unfold link
  refine wp_bind (wp_namei hg htree hcwd (fun s' _ h' => wp_pure fun _ => h') fun ip s₁ hg₁ h₁ => ?_)
  refine wp_bind (h₁.wp_ilock hg₁ fun s₂ hg₂ h₂ hvalid _ => wp_bind (wp_get ?_))
  refine wp_ite (fun _ => ?_) fun htype => ?_
  · exact wp_bind (h₂.wp_iunlockput hg₂ fun s' _ h' => wp_pure fun _ => h')
  · exact wp_linkNew (hg₂.at h₂.ref_pos hvalid) htree hcwd h₂ htype

end

/-! ### The system -/

/-- A system with a consistent file system. -/
structure Consistent (y : Sys) : Prop where
  good : Good y.fs
  /-- The directories. -/
  tree : (view y.fs).Tree
  cwd : ∀ p k, (y.procs p).cwd = some k → 0 < (view y.fs).ref k
  /-- Files that are not open have no type. -/
  free : ∀ f, (y.ftable f).ref = 0 → (y.ftable f).type = .none

/-- The files, the reference counts, the processes and the open files are as before. -/
structure Restored (y y' : Sys) : Prop where
  /-- The directory tree, and type, link count, size and contents of every inode. -/
  vol : (view y'.fs).vol = (view y.fs).vol
  ref : (view y'.fs).ref = (view y.fs).ref
  inum : ∀ k, 0 < (view y.fs).ref k → (view y'.fs).inum k = (view y.fs).inum k
  /-- The current directories and the descriptor tables. -/
  procs : y'.procs = y.procs
  ftable : y'.ftable = y.ftable

/-- The calls that take a path and that can fail. -/
def Call.TakesPath : Call → Prop
  | .openFile .. => True
  | .link .. => True
  | .unlink .. => True
  | .mkdir .. => True
  | .mknod .. => True
  | .chdir .. => True
  | _ => False

/-- An `open` with `O_CREATE` for a name that its directory does not have. -/
def Call.Creates (v : View) (cwd : Fin ninode) : Call → Prop
  | .openFile path omode => omode &&& oCreate ≠ 0 ∧ Missing v cwd path
  | _ => False

section

variable {y : Sys} {p : Fin nproc} {cwd : Fin ninode}

/-- What holds of a search without references holds of the system. -/
theorem Holds.restored {y' : Sys} (h : Holds (view y.fs) 0 (view y'.fs)) (hprocs : y'.procs = y.procs)
    (hftable : y'.ftable = y.ftable) : Restored y y' :=
  ⟨h.vol, by rw [h.ref, add_zero], h.inum, hprocs, hftable⟩

theorem Good.logged {s : State} (h : Good s) (logged : List ℕ) : Good { s with logged := logged } := by
  obtain ⟨g, hrep⟩ := h
  exact ⟨g, hrep.blocks, hrep.synced, hrep.cache⟩

/-- A function of the file system that fails without a change. -/
theorem wp_inOp_restored {x : FsM ℤ} (hg : Good y.fs) (hx : ∀ s, Good s → view s = view y.fs →
      wp x (fun _ => True) (fun r s' => r = -1 → Holds (view s) 0 (view s')) s) :
    wp (inOp x) (fun _ => True) (fun r y' => r = -1 → Restored y y') y := by
  unfold inOp
  refine wp_bind (wp_beginOp (wp_bind (wp_onFs ?_)))
  refine wp_mono (hx _ (hg.logged []) rfl) ?_
  intro r s' hfail
  refine wp_bind (wp_endOp (wp_pure ?_))
  intro hr
  exact (hfail hr).restored rfl rfl

variable {path : Name}

theorem wp_sysChdir (hg : Good y.fs) (htree : (view y.fs).Tree) (hcwd : 0 < (view y.fs).ref cwd) :
    wp (sysChdir p cwd path) (fun _ => True) (fun r y' => r = -1 → Restored y y') y := by
  unfold sysChdir inOp
  refine wp_bind (wp_bind (wp_beginOp (wp_bind (wp_onFs ?_))))
  refine wp_mono (wp_enter (hg.logged []) htree hcwd) ?_
  rintro (_ | ip) s' hfail
  · refine wp_bind (wp_endOp (wp_pure (wp_pure ?_)))
    intro _
    exact (hfail rfl).restored rfl rfl
  · refine wp_bind (wp_endOp (wp_pure ?_))
    exact wp_skip fun _ _ => wp_pure nofun

/-- The inode that `sys_open` opens. -/
theorem wp_openInode {s : State} {omode : BitVec 32} (hg : Good s)
    (htree : (view s).Tree) (hcwd : 0 < (view s).ref cwd) {Q : Option (Fin ninode) → State → Prop}
    (hnone : ∀ s', Good s' → Holds (view s) 0 (view s') →
      ¬ Call.Creates (view s) cwd (.openFile path omode) → Q none s')
    (hold : ∀ k s', Good s' → Holds (view s) (0 + Pi.single k 1) (view s') →
      ¬ Call.Creates (view s) cwd (.openFile path omode) → Q (some k) s')
    (hnew : ∀ k s', Good s' → Made (view s) k (view s') →
      Call.Creates (view s) cwd (.openFile path omode) → Q (some k) s') :
    wp (openInode cwd path omode) (fun _ => True) Q s := by
  unfold openInode
  refine wp_ite (fun hcreate => ?_) fun hcreate => ?_
  · refine wp_create hg htree hcwd ?_ ?_ ?_
    · intro s' hg' h' hthere
      exact hnone s' hg' h' fun hc => hthere hc.2
    · intro k s' hg' h' hthere
      exact hold k s' hg' h' fun hc => hthere hc.2
    · intro dp name nd s' hat h' hmiss hmissing
      refine wp_mono (wp_and wp_createNew_ne_none (wp_createNew_file hat h' htree hmiss)) ?_
      rintro (_ | ip) s'' ⟨hne, hmade⟩
      · exact absurd rfl hne
      · exact hnew ip s'' (hmade ip rfl).1 (hmade ip rfl).2 ⟨hcreate, hmissing⟩
  · have hnot : ¬ Call.Creates (view s) cwd (.openFile path omode) := fun hc => hcreate hc.1
    refine wp_bind (wp_namei hg htree hcwd (fun s' hg' h' => wp_pure (hnone s' hg' h' hnot)) ?_)
    intro ip s₁ hg₁ h₁
    refine wp_bind (h₁.wp_ilock hg₁ fun s₂ hg₂ h₂ _ _ => wp_bind (wp_get ?_))
    refine wp_ite (fun _ => ?_) fun _ => wp_pure (hold ip s₂ hg₂ h₂ hnot)
    exact wp_bind (h₂.wp_iunlockput hg₂ fun s' hg' h' => wp_pure (hnone s' hg' h' hnot))

/-- `sys_open` without a file or a descriptor gives the inode up, and leaves it behind when it is
new. -/
theorem wp_openFail {y₁ : Sys} {ip : Fin ninode} {c : Call} (hg : Good y₁.fs)
    (hprocs : y₁.procs = y.procs) (hftable : y₁.ftable = y.ftable)
    (hip : (Holds (view y.fs) (0 + Pi.single ip 1) (view y₁.fs) ∧ ¬ c.Creates (view y.fs) cwd) ∨
      (Made (view y.fs) ip (view y₁.fs) ∧ c.Creates (view y.fs) cwd)) :
    wp (openFail ip) (fun _ => True)
      (fun _ y' => Restored y y' ↔ ¬ c.Creates (view y.fs) cwd) y₁ := by
  unfold openFail
  obtain ⟨h, hnot⟩ | ⟨⟨hpos, hfree, nd, hnode, hnlink⟩, hcreates⟩ := hip
  · refine wp_bind (wp_onFs (h.wp_iunlockput hg fun s' _ h' => ?_))
    refine wp_bind (wp_endOp (wp_pure ?_))
    exact iff_of_true (h'.restored hprocs hftable) hnot
  · refine wp_bind (wp_onFs (hg.wp_iunlockput any_panic hpos fun s' _ hput _ => ?_))
    refine wp_bind (wp_endOp (wp_pure ?_))
    refine iff_of_false (fun hrestored => ?_) (not_not_intro hcreates)
    have hvol : (view s').vol = (view y₁.fs).vol := by
      obtain ⟨-, ⟨-, hw⟩ | ⟨-, -, ⟨nd', hnode', hzero⟩, -⟩⟩ := hput
      · rw [hw]
        rfl
      · obtain rfl := some.inj (hnode.symm.trans hnode')
        exact absurd hzero hnlink
    have hsame := congrFun hrestored.vol ((view y₁.fs).inum ip)
    rw [hvol, hnode, hfree] at hsame
    exact nomatch hsame

/-- `sys_open` from `filealloc` on. -/
def openFile (p : Fin nproc) (ip : Fin ninode) (omode : BitVec 32) : SysM ℤ := do
  match ← filealloc with
  | none => openFail ip
  | some f => do
    match ← fdalloc p f with
    | none => do
      fileclose f
      openFail ip
    | some fd => openDone f fd ip omode

/-- The rest of `sys_open` with an inode, which is new or was there. -/
theorem wp_openFile {ip : Fin ninode} {omode : BitVec 32} {s' : State} (hy : Consistent y) (hg' : Good s')
    (hip : (Holds (view y.fs) (0 + Pi.single ip 1) (view s') ∧
      ¬ Call.Creates (view y.fs) cwd (.openFile path omode)) ∨
      (Made (view y.fs) ip (view s') ∧ Call.Creates (view y.fs) cwd (.openFile path omode))) :
    wp (openFile p ip omode) (fun _ => True) (fun r y' => r = -1 →
      (Restored y y' ↔ ¬ Call.Creates (view y.fs) cwd (.openFile path omode))) { y with fs := s' } := by
  unfold openFile
  have hfail : ∀ y₁ : Sys, y₁.fs = s' → y₁.procs = y.procs → y₁.ftable = y.ftable →
      wp (openFail ip) (fun _ => True) (fun r y' => r = -1 →
        (Restored y y' ↔ ¬ Call.Creates (view y.fs) cwd (.openFile path omode))) y₁ := by
    rintro y₁ rfl hprocs hftable
    exact wp_mono (wp_openFail hg' hprocs hftable hip) fun _ _ hiff _ => hiff
  unfold filealloc
  refine wp_bind (wp_bind (wp_get ?_))
  cases hfile : freeFile y.ftable with
  | none => exact wp_pure (hfail _ rfl rfl rfl)
  | some f =>
    have hzero : (y.ftable f).ref = 0 := by simpa using List.find?_some hfile
    refine wp_bind (wp_setFile (wp_pure ?_))
    unfold fdalloc
    refine wp_bind (wp_bind (wp_get ?_))
    simp only
    cases hfd : freeFd (y.procs p).ofile with
    | none =>
      refine wp_pure (wp_bind ?_)
      unfold fileclose
      refine wp_bind (wp_get ?_)
      simp only [update_self]
      rw [if_neg (by decide), if_neg (by decide)]
      refine wp_bind (wp_setFile ?_)
      unfold fileRelease
      rw [if_neg (by rw [hy.free f hzero]; decide)]
      refine wp_pure (hfail _ rfl rfl ?_)
      simp only [update_idem, update_self]
      rw [← hzero, ← hy.free f hzero, update_eq_self]
    | some fd =>
      refine wp_bind ?_
      unfold setFd setProc openDone
      refine wp_modify (wp_pure ?_)
      iterate 2 refine wp_skip fun _ _ => ?_
      refine wp_skip fun _ _ => wp_pure ?_
      intro hneg
      omega

theorem wp_sysOpen {omode : BitVec 32} (hy : Consistent y) (hcwd : 0 < (view y.fs).ref cwd) :
    wp (sysOpen p cwd path omode) (fun _ => True) (fun r y' => r = -1 →
      (Restored y y' ↔ ¬ Call.Creates (view y.fs) cwd (.openFile path omode))) y := by
  unfold sysOpen
  refine wp_bind (wp_beginOp (wp_bind (wp_onFs ?_)))
  refine wp_openInode (hy.good.logged []) hy.tree hcwd ?_ ?_ ?_
  · intro s' _ h' hnot
    refine wp_bind (wp_endOp (wp_pure fun _ => ?_))
    exact iff_of_true (h'.restored rfl rfl) hnot
  · intro ip s' hg' h' hnot
    exact wp_openFile hy hg' (.inl ⟨h', hnot⟩)
  · intro ip s' hg' hmade hcreates
    exact wp_openFile hy hg' (.inr ⟨hmade, hcreates⟩)

/-- A call that has failed has restored everything, unless it is an `open` that has made a file. -/
theorem failed_call_restores_iff {y' : Sys} {c : Call} (hy : Consistent y)
    (hcwd : (y.procs p).cwd = some cwd) (hc : c.TakesPath) (hfail : syscall p cwd c y = .ok (-1, y')) :
    Restored y y' ↔ ¬ c.Creates (view y.fs) cwd := by
  have hpos := hy.cwd p cwd hcwd
  cases c with
  | openFile path omode => exact wp_ok (wp_sysOpen hy hpos) hfail rfl
  | link old new =>
    refine iff_of_true (wp_ok (wp_inOp_restored hy.good fun s hg hview => ?_) hfail rfl) id
    exact wp_link hg (hview ▸ hy.tree) (hview ▸ hpos)
  | unlink path =>
    refine iff_of_true (wp_ok (wp_inOp_restored hy.good fun s hg hview => ?_) hfail rfl) id
    exact wp_unlink hg (hview ▸ hy.tree) (hview ▸ hpos)
  | mkdir path =>
    refine iff_of_true (wp_ok (wp_inOp_restored hy.good fun s hg hview => ?_) hfail rfl) id
    exact wp_make hg (hview ▸ hy.tree) (hview ▸ hpos)
  | mknod path major minor =>
    refine iff_of_true (wp_ok (wp_inOp_restored hy.good fun s hg hview => ?_) hfail rfl) id
    exact wp_make hg (hview ▸ hy.tree) (hview ▸ hpos)
  | chdir path =>
    exact iff_of_true (wp_ok (wp_sysChdir hy.good hy.tree hpos) hfail rfl) id
  | read | write | close | dup | fork | exit => exact hc.elim

end

/-! ### File systems with small directories -/

/-- The inode of a directory with two entries in a block. -/
def smallDir (b : ℕ) (nlink : BitVec 16) : Dinode :=
  { Dinode.zero with
    type := tDir
    nlink := nlink
    size := BitVec.ofNat 32 (2 * direntSize)
    addrs := fun j => if j = 0 then BitVec.ofNat 32 b else 0 }

/-- The pointers of a small directory. -/
theorem ptr_smallDir {b : ℕ} (hb : b < fsSize) (disk : ℕ → Block) (nlink : BitVec 16) (n : ℕ) :
    ptr disk (smallDir b nlink) n = if n = 0 then b else 0 := by
  by_cases hn : n = 0
  · rw [hn, ptr, if_pos (by decide), if_pos rfl]
    change b % 2 ^ 32 = b
    unfold fsSize at hb
    omega
  · rw [if_neg hn]
    by_cases hdirect : n < ndirect
    · rw [ptr, if_pos hdirect, Dinode.addr]
      split_ifs with hlt
      · have hne : (⟨n, hlt⟩ : Fin (ndirect + 1)) ≠ 0 := by simpa [Fin.ext_iff] using hn
        simp [smallDir, hne]
      · rfl
    · exact ptr_eq_zero_of_addr rfl (by omega)

variable {j : ℕ}

theorem Node.Names.small {nd : Node} {off : ℕ} (h : nd.Names off j) (hsize : nd.size = 32) :
    off = 0 ∨ off = direntSize := by
  obtain ⟨m, rfl⟩ := h.aligned
  have hwithin := h.within
  unfold direntSize at hwithin ⊢
  omega

theorem dinode_of_zero {disk : ℕ → Block} (h : disk (iblock j) = fun _ => 0) :
    dinode disk j = Dinode.zero := by
  have hload : ∀ o w, LittleEndian.load (fun _ => 0#8) o w = 0 :=
    fun _ _ => LittleEndian.load_eq_zero fun _ _ => rfl
  simp [dinode, readDinode, h, hload, Dinode.zero]

/-- A file system whose inodes are small directories, with one block behind the other. -/
theorem rep_of_dirs {s : State} (dirs : List ℕ) (links : ℕ → BitVec 16) (owner : ℕ → Option (ℕ × ℕ))
    (hnodup : dirs.Nodup) (hroom : nmeta + dirs.length ≤ fsSize) (hrange : ∀ j ∈ dirs, j < ninodes)
    (hino : ∀ j < ninodes, dinode s.disk j =
      if j ∈ dirs then smallDir (nmeta + dirs.idxOf j) (links j) else Dinode.zero)
    (howner : ∀ {b j n}, owner b = some (j, n) ↔ nmeta ≤ b ∧ dirs[b - nmeta]? = some j ∧ n = 0)
    (hbits : ∀ b < fsSize, bit s.disk b = decide (b < nmeta + dirs.length))
    (hcache : Cache s.icache (dinode s.disk)) : Rep s ⟨dinode s.disk, owner⟩ none none := by
  have hdir : ∀ j < ninodes, (dinode s.disk j).type ≠ 0 → j ∈ dirs ∧
      nmeta + dirs.idxOf j < fsSize ∧ dinode s.disk j = smallDir (nmeta + dirs.idxOf j) (links j) := by
    intro j hj htype
    rw [hino j hj] at htype ⊢
    split_ifs at htype ⊢ with hmem
    · have hlt := List.idxOf_lt_length_of_mem hmem
      exact ⟨hmem, by omega, rfl⟩
    · exact absurd rfl htype
  refine ⟨⟨⟨?_, ?_, ?_, ?_⟩, ?_⟩, fun _ _ _ => rfl, hcache⟩
  · intro b j n hb
    obtain ⟨hlow, hget, rfl⟩ := howner.mp hb
    obtain ⟨hlt, hval⟩ := List.getElem?_eq_some_iff.mp hget
    have hmem : j ∈ dirs := hval ▸ List.getElem_mem hlt
    have hblock : nmeta + dirs.idxOf j = b := by
      rw [← hval, hnodup.idxOf_getElem]
      omega
    have hself : dinode s.disk j = smallDir b (links j) := by
      rw [hino j (hrange j hmem), if_pos hmem, hblock]
    have hhigh : b < fsSize := by omega
    refine ⟨hrange j hmem, ?_, Nat.zero_le _, ?_, hlow, hhigh⟩
    · change (dinode s.disk j).type ≠ 0
      rw [hself]
      exact (by decide : tDir ≠ 0)
    · change ptr s.disk (dinode s.disk j) 0 = b
      rw [hself, ptr_smallDir hhigh, if_pos rfl]
  · intro j hj htype _ n _ hne
    obtain ⟨hmem, hlt, hself⟩ := hdir j hj htype
    change ptr s.disk (dinode s.disk j) n ≠ 0 at hne
    change owner (ptr s.disk (dinode s.disk j) n) = some (j, n)
    rw [hself, ptr_smallDir hlt] at hne ⊢
    split_ifs at hne ⊢ with hn
    · refine howner.mpr ⟨Nat.le_add_right _ _, ?_, hn⟩
      rw [Nat.add_sub_cancel_left, List.getElem?_idxOf hmem]
    · exact absurd rfl hne
  · intro j hj htype hne
    change (dinode s.disk j).addr ndirect ≠ 0 at hne
    rw [(hdir j hj htype).2.2] at hne
    exact absurd rfl hne
  · intro b hb
    rw [hbits b hb, decide_eq_true_eq, isSome_iff_exists]
    constructor
    · intro hlt
      by_cases hlow : b < nmeta
      · exact .inl hlow
      · have hget : b - nmeta < dirs.length := by omega
        exact .inr ⟨(dirs[b - nmeta], 0), howner.mpr ⟨by omega, List.getElem?_eq_getElem hget, rfl⟩⟩
    · rintro (hlow | ⟨⟨j, n⟩, hj⟩)
      · omega
      · obtain ⟨hlow, hget, -⟩ := howner.mp hj
        obtain ⟨hlt, -⟩ := List.getElem?_eq_some_iff.mp hget
        omega
  · intro j hj htype _ n _ hsize
    obtain ⟨-, hlt, hself⟩ := hdir j hj htype
    change n * bsize < (dinode s.disk j).size.toNat at hsize
    change ptr s.disk (dinode s.disk j) n ≠ 0
    rw [hself] at hsize ⊢
    have hbytes : (smallDir (nmeta + dirs.idxOf j) (links j)).size.toNat = 32 := rfl
    have hn : n = 0 := by
      unfold bsize at hsize
      omega
    rw [ptr_smallDir hlt, if_pos hn]
    unfold nmeta
    omega

/-! ### A file system with an empty root directory -/

/-- The bitmap and the entries of the root directory. -/
def rootBlocks : ℕ → Block := fun b j =>
  if b = bmapstart then if j < 7 then 0xff else if j = 7 then 0x0f else 0
  else if b = nmeta then
    if j = 0 ∨ j = direntSize then 1
    else if j = 2 ∨ j = direntSize + 2 ∨ j = direntSize + 3 then 0x2e
    else 0
  else 0

/-- The inode of the root directory. -/
def rootDir : Dinode :=
  { Dinode.zero with
    type := tDir
    nlink := 1
    size := BitVec.ofNat 32 (2 * direntSize)
    addrs := fun j => if j = 0 then BitVec.ofNat 32 nmeta else 0 }

/-- The disk. -/
def rootDisk : ℕ → Block :=
  update rootBlocks (iblock rootino)
    (writeDinode (rootBlocks (iblock rootino)) (rootino % ipb) rootDir)

theorem dinode_rootDisk (hj : j < ninodes) :
    dinode rootDisk j = if j = rootino then rootDir else Dinode.zero := by
  obtain ⟨-, hlt⟩ := iblock_range hj
  rw [rootDisk, dinode_write, dinode_of_zero]
  funext x
  unfold bmapstart at hlt
  unfold rootBlocks
  rw [if_neg (by unfold bmapstart; omega), if_neg (by unfold nmeta; omega)]

/-- A process in the root directory that has it open with all its descriptors. -/
def rootSys : Sys where
  fs := ⟨rootDisk, [], fun k => ⟨rootino, if k = 0 then 2 else 0, false, true, rootDir⟩⟩
  ftable := fun f => if f = 0 then ⟨.inode, nofile, true, false, 0, 0⟩ else ⟨.none, 0, false, false, 0, 0⟩
  procs := fun p => if p = 0 then ⟨fun _ => some 0, some 0⟩ else ⟨fun _ => none, none⟩
  sections := []

/-- The owners of the blocks. -/
def rootGhost : Ghost := ⟨dinode rootDisk, fun b => if b = nmeta then some (rootino, 0) else none⟩

/-- The file system represents a volume. -/
theorem rep_rootSys : Rep rootSys.fs rootGhost none none := by
  have hzero : ∀ m, 0 < (rootSys.fs.icache m).ref → m = 0 := by
    intro m hm
    by_contra hne
    simp [rootSys, hne] at hm
  have hself : dinode rootDisk rootino = rootDir := by
    rw [dinode_rootDisk (by decide), if_pos rfl]
  refine rep_of_dirs [rootino] (fun _ => 1) _ (by simp) (by decide) (by decide)
    ?_ ?_ (by decide +kernel) ⟨?_, ?_, ?_, ?_⟩
  · intro j hj
    change dinode rootDisk j = _
    rw [dinode_rootDisk hj]
    by_cases hroot : j = rootino
    · simp [hroot, smallDir, rootDir]
    · simp [hroot]
  · intro b j n
    by_cases hb : b = nmeta
    · simp [hb, eq_comm]
    · rw [if_neg hb]
      refine iff_of_false nofun ?_
      rintro ⟨hlow, hget, -⟩
      obtain ⟨hlt, -⟩ := List.getElem?_eq_some_iff.mp hget
      rw [List.length_singleton] at hlt
      omega
  · intro j l hj hl _
    rw [hzero j hj, hzero l hl]
  · intro _ _
    exact (by decide : rootino < ninodes)
  · intro _ _ _
    exact hself.symm
  · intro _ _ _
    exact (by decide : tDir ≠ 0)

theorem vol_rootSys {i : ℕ} {nd : Node} (h : (view rootSys.fs).vol i = some nd) :
    nd = fileOf rootDisk rootDir := by
  change diskVol rootDisk i = some nd at h
  unfold diskVol node at h
  split_ifs at h with hi htype
  rw [dinode_rootDisk hi] at h htype
  split_ifs at h htype with hroot
  · exact (some.inj h).symm
  · exact absurd rfl htype

/-- The file system is consistent. -/
theorem consistent_rootSys : Consistent rootSys := by
  have hkept : (view rootSys.fs).Kept rootino := .inr ⟨0, by decide, rfl⟩
  refine ⟨⟨_, rep_rootSys⟩, ⟨hkept, ?_⟩, ?_, ?_⟩
  · intro i nd off j _ hnode hnames
    obtain rfl := vol_rootSys hnode
    have hj : j = rootino := by
      rw [← hnames.inum]
      obtain rfl | rfl := hnames.small rfl
      · decide +kernel
      · decide +kernel
    rw [hj]
    exact ⟨by decide, hkept⟩
  · intro p k hk
    simp only [rootSys] at hk
    split_ifs at hk with hp
    · obtain rfl := some.inj hk
      decide
  · intro f hf
    simp only [rootSys] at hf ⊢
    split_ifs at hf ⊢ with hzero
    · exact absurd hf (by decide)
    · rfl

/-- The name of a file. -/
def fileA : Name := [0x61]

theorem exists_ok_of_map {α β : Type} {x : Except Panic α} {f : α → β} {b : β}
    (h : x.toOption.map f = some b) : ∃ a, x = .ok a ∧ f a = b := by
  cases x with
  | error e => exact nomatch h
  | ok a => exact ⟨a, rfl, some.inj h⟩

/-- `unlink` of a file that is not there leaves everything as it was. -/
theorem unlink_missing_restores :
    ∃ y', syscall 0 0 (.unlink fileA) rootSys = .ok (-1, y') ∧ Restored rootSys y' := by
  have hrun : (syscall 0 0 (.unlink fileA) rootSys).toOption.map Prod.fst = some (-1) := by
    decide +kernel
  obtain ⟨⟨r, y'⟩, hok, rfl⟩ := exists_ok_of_map hrun
  exact ⟨y', hok, (failed_call_restores_iff (c := .unlink fileA) consistent_rootSys rfl trivial hok).mpr id⟩

/-- `open` with `O_CREATE` fails for want of a descriptor and leaves the new file behind. -/
theorem open_leaves_new_file :
    Consistent rootSys ∧ ∃ y', syscall 0 0 (.openFile fileA (oCreate ||| oRdwr)) rootSys = .ok (-1, y') ∧
      (view rootSys.fs).vol 2 = none ∧ ((view y'.fs).vol 2).isSome = true ∧ ¬ Restored rootSys y' := by
  have hrun : (syscall 0 0 (.openFile fileA (oCreate ||| oRdwr)) rootSys).toOption.map
      (fun r => (r.1, (diskVol r.2.fs.disk 2).isSome)) = some (-1, true) := by
    decide +kernel
  obtain ⟨⟨r, y'⟩, hok, hseen⟩ := exists_ok_of_map hrun
  obtain ⟨rfl, hnew⟩ := Prod.mk.inj hseen
  have hfree : (view rootSys.fs).vol 2 = none := by
    change diskVol rootDisk 2 = none
    rw [diskVol, if_pos (by decide), dinode_rootDisk (by decide)]
    rfl
  refine ⟨consistent_rootSys, y', hok, hfree, hnew, ?_⟩
  intro hrestored
  have hsome : ((view y'.fs).vol 2).isSome = true := hnew
  rw [hrestored.vol, hfree] at hsome
  cases hsome

end Xv6Draw.Fs
