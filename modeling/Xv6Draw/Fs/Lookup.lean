import Xv6Draw.Fs.View
import Xv6Draw.Lib.Fields

/-!
# Looking for a file

What `dirlookup` and `namex` find, in terms of the files: the entry of a directory with a
given name, and the inode to which a path leads.

On the way the functions take references and give them up. No inode is freed by that when every
entry names an inode with links, an inode that someone has in use, or a free one. A search
stops with a panic when it comes to a free inode, or when the inode cache is full. The rules
say when this happens: each has a condition under which the function returns, and a search that
has returned has met it.
-/

namespace Xv6Draw.Fs

open Function Hoare List Option

/-- The entry of a directory with a name: its inode number and its offset. -/
def Node.lookup (nd : Node) (name : Name) : Option (ℕ × ℕ) :=
  (offsets 0 nd.size).findSome? fun off =>
    if (nd.dirent off).inum = 0 then none
    else if namecmp name (nd.dirent off).name = 0 then some ((nd.dirent off).inum, off)
    else none

/-- An entry of a directory that names an inode. -/
structure Node.Names (nd : Node) (off i : ℕ) : Prop where
  dir : nd.type = tDir
  /-- Entries lie one behind the other. -/
  aligned : direntSize ∣ off
  within : off + direntSize ≤ nd.size
  inum : (nd.dirent off).inum = i
  used : i ≠ 0

/-- Where a path leads in volumes with a property: to an inode, for `nameiparent` with the
last element of the path, or nowhere. -/
inductive Leads (V : (ℕ → Option Node) → Prop) (parent : Bool) :
    ℕ → Name → Option (ℕ × Name) → Prop where
  /-- The path ends. -/
  | done {i : ℕ} {path : Name} (helem : skipelem path = none) :
    Leads V parent i path (if parent then none else some (i, []))
  /-- The path goes through a file that is no directory. -/
  | notDir {i : ℕ} {path name rest : Name} {vol : ℕ → Option Node} {nd : Node} (hvol : V vol)
    (helem : skipelem path = some (name, rest)) (hnode : vol i = some nd) (htype : nd.type ≠ tDir) :
    Leads V parent i path none
  /-- The parent is found. -/
  | last {i : ℕ} {path name rest : Name} {vol : ℕ → Option Node} {nd : Node} (hvol : V vol)
    (helem : skipelem path = some (name, rest)) (hnode : vol i = some nd) (htype : nd.type = tDir)
    (hlast : parent ∧ rest = []) : Leads V parent i path (some (i, name))
  /-- A name is not there. -/
  | miss {i : ℕ} {path name rest : Name} {vol : ℕ → Option Node} {nd : Node} (hvol : V vol)
    (helem : skipelem path = some (name, rest)) (hnode : vol i = some nd) (htype : nd.type = tDir)
    (hmore : ¬ (parent ∧ rest = [])) (hmiss : nd.lookup name = none) : Leads V parent i path none
  /-- The path goes on. -/
  | next {i j off : ℕ} {path name rest : Name} {vol : ℕ → Option Node} {nd : Node}
    {r : Option (ℕ × Name)} (hvol : V vol) (helem : skipelem path = some (name, rest))
    (hnode : vol i = some nd) (htype : nd.type = tDir) (hmore : ¬ (parent ∧ rest = []))
    (hfound : nd.lookup name = some (j, off)) (hrest : Leads V parent j rest r) :
    Leads V parent i path r

/-- The inode at which a path starts. -/
def View.start (v : View) (cwd : Fin ninode) (path : Name) : ℕ :=
  if path.head? = some slash then rootino else v.inum cwd

/-! ### The components of a path -/

/-- The components of a path: the runs of characters between slashes, cut to the length of a name. -/
def components (path : Name) : List Name :=
  (Fields.fields (· = slash) path).map (·.take dirsiz)

variable {path : Name} {vol : ℕ → Option Node} {parent : Bool} {i : ℕ}

theorem components_of_skipelem_none (h : skipelem path = none) : components path = [] := by
  unfold skipelem at h
  split at h
  · next hdrop => rw [components, ← Fields.fields_dropWhile, hdrop, Fields.fields_nil, map_nil]
  · exact nomatch h

/-- `skipelem` takes the first component, and its rest is empty with the last one. -/
theorem components_of_skipelem {name rest : Name} (h : skipelem path = some (name, rest)) :
    components path = name :: components rest ∧ (components rest = [] ↔ rest = []) := by
  have hhead : ∀ {c cs} {p : Name}, p.dropWhile (· = slash) = c :: cs → c ≠ slash := by
    intro c cs p hdrop
    have hstop := List.head?_dropWhile_not (fun b => decide (b = slash)) p
    rw [hdrop] at hstop
    simpa using hstop
  unfold skipelem at h
  split at h
  · exact nomatch h
  · next c cs hdrop =>
    have hc := hhead hdrop
    obtain ⟨rfl, rfl⟩ := Prod.mk.inj (some.inj h)
    constructor
    · rw [components, ← Fields.fields_dropWhile, hdrop, Fields.fields_cons (by simpa using hc),
        components, Fields.fields_dropWhile]
      simp [hc]
    · constructor
      · intro hnone
        cases hrest : ((c :: cs).dropWhile (· ≠ slash)).dropWhile (· = slash) with
        | nil => rfl
        | cons d ds =>
          rw [hrest, components, Fields.fields_cons (by simpa using hhead hrest)] at hnone
          exact nomatch hnone
      · intro hnil
        rw [hnil]
        rfl

/-- The inode of a name in a directory. -/
def lookupIn (vol : ℕ → Option Node) (i : ℕ) (name : Name) : Option ℕ :=
  match vol i with
  | none => none
  | some nd => if nd.type = tDir then (nd.lookup name).map Prod.fst else none

/-- The inode that is reached by looking names up one after another. -/
def follow (vol : ℕ → Option Node) (i : ℕ) (names : List Name) : Option ℕ :=
  names.foldlM (lookupIn vol) i

/-- The directory in which the last one of several names is looked up, and that name. -/
def followParent (vol : ℕ → Option Node) (i : ℕ) (names : List Name) : Option (ℕ × Name) := do
  let last ← names.getLast?
  let j ← follow vol i names.dropLast
  let nd ← vol j
  if nd.type = tDir then some (j, last) else none

/-- What `namex` looks for. -/
def resolve (vol : ℕ → Option Node) (parent : Bool) (i : ℕ) (names : List Name) : Option (ℕ × Name) :=
  if parent then followParent vol i names else (follow vol i names).map (·, [])

/-- The first name is looked up in the inode, and the others behind it. -/
theorem resolve_cons {name : Name} {rest : List Name} (hmore : ¬ (parent ∧ rest = [])) :
    resolve vol parent i (name :: rest) = (lookupIn vol i name).bind (resolve vol parent · rest) := by
  cases parent with
  | false =>
    unfold resolve follow
    rw [foldlM_cons]
    cases lookupIn vol i name with
    | none => rfl
    | some j => rfl
  | true =>
    obtain ⟨next, more, rfl⟩ := exists_cons_of_ne_nil fun hnil => hmore ⟨rfl, hnil⟩
    unfold resolve followParent follow
    rw [List.getLast?_cons_cons, dropLast_cons_cons, foldlM_cons]
    cases lookupIn vol i name with
    | none =>
      cases (next :: more).getLast? with
      | none => rfl
      | some last => rfl
    | some j => rfl

/-- Where a path leads in one volume. -/
theorem Leads.eq_resolve {r : Option (ℕ × Name)} (h : Leads (· = vol) parent i path r) :
    r = resolve vol parent i (components path) := by
  induction h with
  | done helem =>
    rw [components_of_skipelem_none helem]
    rfl
  | @notDir i path name rest w nd hvol helem hnode htype =>
    subst hvol
    rw [(components_of_skipelem helem).1]
    by_cases hlast : parent ∧ components rest = []
    · rw [hlast.1, hlast.2]
      simp [resolve, followParent, follow, hnode, htype]
    · rw [resolve_cons hlast, lookupIn, hnode]
      simp [htype]
  | last hvol helem hnode htype hlast =>
    subst hvol
    rw [(components_of_skipelem helem).1, (components_of_skipelem helem).2.mpr hlast.2, hlast.1]
    simp [resolve, followParent, follow, hnode, htype]
  | miss hvol helem hnode htype hmore hmiss =>
    subst hvol
    obtain ⟨hcons, hend⟩ := components_of_skipelem helem
    rw [hcons, resolve_cons (by rwa [hend]), lookupIn, hnode]
    simp [htype, hmiss]
  | next hvol helem hnode htype hmore hfound _ ih =>
    subst hvol
    obtain ⟨hcons, hend⟩ := components_of_skipelem helem
    rw [hcons, resolve_cons (by rwa [hend]), lookupIn, hnode]
    simp [htype, hfound, ih]

theorem Leads.unique {r r' : Option (ℕ × Name)} (h : Leads (· = vol) parent i path r)
    (h' : Leads (· = vol) parent i path r') : r = r' :=
  h.eq_resolve.trans h'.eq_resolve.symm

/-! ### References on the way -/

/-- The inode has links or is in use, unless it is free. -/
def View.Kept (v : View) (i : ℕ) : Prop :=
  (∀ nd, v.vol i = some nd → nd.nlink ≠ 0) ∨ ∃ k, 0 < v.ref k ∧ v.inum k = i

/-- The root, and all that the entries of directories name, has links or is in use. -/
structure View.Tree (v : View) : Prop where
  root : v.Kept rootino
  names : ∀ {i nd off j}, v.Kept i → v.vol i = some nd → nd.Names off j → j < ninodes ∧ v.Kept j

/-- The view of a function that has taken references and has changed nothing else. -/
structure Holds (v₀ : View) (x : Fin ninode → ℕ) (v : View) : Prop where
  vol : v.vol = v₀.vol
  ref : v.ref = v₀.ref + x
  /-- Entries that were in use are for the same inodes. -/
  inum : ∀ k, 0 < v₀.ref k → v.inum k = v₀.inum k
  /-- The inodes that the function has references to. -/
  kept : ∀ k, 0 < x k → v₀.Kept (v.inum k)

section

variable {v₀ v w : View} {x : Fin ninode → ℕ} {k cwd : Fin ninode} {i : ℕ}

theorem Holds.refl (v : View) : Holds v 0 v :=
  ⟨rfl, (add_zero _).symm, fun _ _ => rfl, fun _ hk => absurd hk (lt_irrefl _)⟩

theorem Holds.ref_pos (h : Holds v₀ (x + Pi.single k 1) v) : 0 < v.ref k := by
  rw [h.ref]
  simp only [Pi.add_apply, Pi.single_eq_same]
  omega

theorem Holds.got (h : Holds v₀ x v) (hkept : v₀.Kept i) (hgot : Got v i k w) :
    Holds v₀ (x + Pi.single k 1) w := by
  have hinum := hgot.inum
  -- the other entries are for the inodes that they were for
  have hsame : ∀ j, j ≠ k ∨ 0 < v.ref j → w.inum j = v.inum j := by
    intro j hj
    obtain ⟨-, -, rfl⟩ | ⟨hunused, -, rfl⟩ := hgot
    · rfl
    · have hjk : j ≠ k := by
        rintro rfl
        obtain hj | hj := hj
        · exact hj rfl
        · omega
      exact update_of_ne hjk _ _
  refine ⟨hgot.vol.trans h.vol, by rw [hgot.ref, h.ref, add_assoc], ?_, ?_⟩
  · intro j hj
    rw [hsame j (.inr (by rw [h.ref]; exact Nat.add_pos_left hj _))]
    exact h.inum j hj
  · intro j hj
    by_cases hjk : j = k
    · rw [hjk, hinum]
      exact hkept
    · rw [hsame j (.inl hjk)]
      apply h.kept j
      simpa [hjk] using hj

/-- `iput`: the inode is not freed. -/
theorem Holds.put (h : Holds v₀ (x + Pi.single k 1) v) (hv : v.Sound) (hput : Put v k w) :
    Holds v₀ x w := by
  have href : w.ref = v₀.ref + x := by
    have hcount := hput.ref
    rw [h.ref, ← add_assoc] at hcount
    exact add_right_cancel hcount
  have hkept := h.kept k (by simp)
  obtain ⟨-, ⟨-, rfl⟩ | ⟨hone, -, ⟨nd, hnode, hnlink⟩, rfl⟩⟩ := hput
  · refine ⟨h.vol, href, h.inum, fun j hj => h.kept j ?_⟩
    exact Nat.add_pos_left hj _
  · exfalso
    obtain hlinks | ⟨j, hj, hinum⟩ := hkept
    · rw [h.vol] at hnode
      exact hlinks nd hnode hnlink
    · rw [← h.inum j hj] at hinum
      have hvj : 0 < v.ref j := by
        rw [h.ref]
        exact Nat.add_pos_left hj _
      obtain rfl := hv.unique j k hvj (by omega) hinum
      rw [h.ref] at hone
      simp only [Pi.add_apply, Pi.single_eq_same] at hone
      omega

end

/-! ### `dirlookup` -/

theorem dvd_of_mem_offsets {off size : ℕ} (h : off ∈ offsets 0 size) : direntSize ∣ off := by
  unfold offsets at h
  rw [mem_range'] at h
  obtain ⟨j, -, rfl⟩ := h
  exact ⟨j, by omega⟩

theorem findSome_append_of_none {α β : Type} {f : α → Option β} {before rest : List α}
    (h : before.findSome? f = none) : (before ++ rest).findSome? f = rest.findSome? f := by
  rw [List.findSome?_append, h, none_or]

/-- A directory consists of whole entries and is not larger than a file can be. -/
structure Node.Whole (nd : Node) : Prop where
  dvd : direntSize ∣ nd.size
  /-- The size is within the largest file. -/
  le : nd.size ≤ maxfile * bsize

/-- Entries of a directory with whole entries lie in it. -/
theorem Node.Whole.within {nd : Node} (h : nd.Whole) {first off : ℕ} (hfirst : direntSize ∣ first)
    (hoff : off ∈ offsets first nd.size) : off + direntSize ≤ nd.size := by
  obtain ⟨m, hm⟩ := h.dvd
  obtain ⟨l, rfl⟩ := hfirst
  unfold offsets at hoff
  rw [mem_range'] at hoff
  obtain ⟨j, hj, rfl⟩ := hoff
  unfold direntSize at *
  omega

/-- An inode has an entry in the cache, or can get one. -/
def View.Available (v : View) (i : ℕ) : Prop := ∃ k, v.ref k = 0 ∨ (0 < v.ref k ∧ v.inum k = i)

section

variable {E : Panic → Prop} {s : State} {dp : Fin ninode} {name : Name}

variable {Q : Option (Fin ninode × ℕ) → State → Prop}

/-- `dirlookup`. -/
theorem At.wp_dirlookup {nd : Node} (h : At s dp nd) (hE : MayPanic E ∨ (nd.type = tDir ∧ nd.Whole ∧
      ∀ i off, nd.lookup name = some (i, off) → (view s).Available i))
    (hrange : ∀ off i, nd.Names off i → i < ninodes)
    (hmiss : nd.type = tDir → nd.lookup name = none → Q none s)
    (hfound : ∀ i off k s', nd.lookup name = some (i, off) → nd.Names off i → Good s' →
      Got (view s) i k (view s') → locks s' = locks s → Q (some (k, off)) s') :
    wp (dirlookup dp name) E Q s := by
  obtain rfl := h.fileOf_eq
  set nd := fileOf s.disk (s.icache dp).d with hnd
  set f : ℕ → Option (ℕ × ℕ) := fun off =>
    if (nd.dirent off).inum = 0 then none
    else if namecmp name (nd.dirent off).name = 0 then some ((nd.dirent off).inum, off)
    else none with hf
  unfold dirlookup
  refine wp_bind (wp_get (wp_ite (fun hnot => wp_throw_or hE fun hc => hnot hc.1) fun hdir => ?_))
  have htype : nd.type = tDir := not_not.mp hdir
  -- the entries before the place of the loop do not have the name
  refine wp_findSomeM (I := fun as t => t = s ∧ ∃ before, offsets 0 nd.size = before ++ as ∧
    before.findSome? f = none) ?_ ?_ ⟨rfl, [], rfl, rfl⟩
  · rintro off as t ⟨rfl, before, hsplit, hbefore⟩
    have hmem : off ∈ offsets 0 nd.size := by
      rw [hsplit]
      simp
    have hstep : f off = none → ∃ before', offsets 0 nd.size = before' ++ as ∧
        before'.findSome? f = none := by
      intro hnone
      refine ⟨before ++ [off], by simp [hsplit], ?_⟩
      rw [findSome_append_of_none hbefore]
      simp [hnone]
    unfold lookupAt
    refine wp_bind (h.wp_readDirent
      (hE.imp_right fun hc => ⟨hc.2.1.within (Nat.dvd_zero _) hmem, hc.2.1.le⟩) (e := .dirlookupRead) nofun fun hsize => ?_)
    refine wp_ite (fun hzero => wp_pure ⟨nofun, fun _ => ⟨rfl, hstep ?_⟩⟩) fun hused => ?_
    · rw [hf]
      simp only [if_pos hzero]
    · refine wp_ite (fun hname => ?_) fun hname => wp_pure ⟨nofun, fun _ => ⟨rfl, hstep ?_⟩⟩
      · have hnames : nd.Names off (nd.dirent off).inum :=
          ⟨htype, dvd_of_mem_offsets hmem, hsize, rfl, hused⟩
        have hoff : f off = some ((nd.dirent off).inum, off) := by
          rw [hf]
          simp only [if_neg hused, if_pos hname]
        have hlookup : nd.lookup name = some ((nd.dirent off).inum, off) := by
          unfold Node.lookup
          rw [hsplit, findSome_append_of_none hbefore, List.findSome?_cons, hoff]
        refine wp_bind (h.good.wp_iget (hE.imp_right fun hc => hc.2.2 _ _ hlookup)
          (hrange off _ hnames) fun k s' h' hk hlocks => wp_pure ⟨?_, nofun⟩)
        intro b hfirst
        cases hfirst
        exact hfound _ off k s' hlookup hnames h' hk hlocks
      · rw [hf]
        simp only [if_neg hused, if_neg hname]
  · rintro t ⟨rfl, before, hsplit, hbefore⟩
    rw [append_nil] at hsplit
    refine hmiss htype ?_
    unfold Node.lookup
    rw [hsplit]
    exact hbefore

/-- `dirlookup` in a directory that the function has a reference to. -/
theorem Holds.wp_dirlookup {v₀ : View} {x : Fin ninode → ℕ} (htree : v₀.Tree)
    (h : Holds v₀ (x + Pi.single dp 1) (view s)) {nd : Node} (hat : At s dp nd)
    (hE : MayPanic E ∨ (nd.type = tDir ∧ nd.Whole ∧
      ∀ i off, nd.lookup name = some (i, off) → (view s).Available i)) (hmiss : nd.lookup name = none → Q none s)
    (hfound : ∀ i off k s', nd.lookup name = some (i, off) → Good s' → Got (view s) i k (view s') →
      Holds v₀ (x + Pi.single dp 1 + Pi.single k 1) (view s') → locks s' = locks s →
      Q (some (k, off)) s') :
    wp (dirlookup dp name) E Q s := by
  have hnames : ∀ off i, nd.Names off i → i < ninodes ∧ v₀.Kept i := by
    intro off i hnames
    exact htree.names (h.kept dp (by simp)) (h.vol ▸ hat.node) hnames
  refine hat.wp_dirlookup hE (fun off i hi => (hnames off i hi).1) (fun _ => hmiss) ?_
  intro i off k s' hlookup hi hg' hgot hlocks
  exact hfound i off k s' hlookup hg' hgot (h.got (hnames off i hi).2 hgot) hlocks

/-- What `skipelem` leaves is shorter than the path. -/
theorem skipelem_length {path rest : Name} (h : skipelem path = some (name, rest)) :
    rest.length < path.length := by
  unfold skipelem at h
  split at h
  · exact nomatch h
  · next c cs hdrop =>
    obtain ⟨-, rfl⟩ := Prod.mk.inj (some.inj h)
    have hc : c ≠ slash := by
      have hhead := List.head?_dropWhile_not (p := fun b => decide (b = slash)) path
      rw [hdrop] at hhead
      simpa using hhead
    have hfirst : ((c :: cs).dropWhile (· ≠ slash)).length ≤ cs.length := by
      rw [dropWhile_cons_of_pos (by simpa using hc)]
      exact (dropWhile_suffix _).length_le
    have hlast := (dropWhile_suffix (l := (c :: cs).dropWhile (· ≠ slash))
      (fun b => decide (b = slash))).length_le
    have hpath := (dropWhile_suffix (l := path) (fun b => decide (b = slash))).length_le
    rw [hdrop, length_cons] at hpath
    omega

variable {v : View}

theorem View.valid_lock {j : Fin ninode} (h : v.valid j = true) (k : Fin ninode) :
    (v.lock k).valid j = true := by
  by_cases hj : j = k
  · simp [lock, hj]
  · simpa only [lock, update_of_ne hj] using h

theorem Put.inum_eq {w : View} {k : Fin ninode} (h : Put v k w) : w.inum = v.inum := by
  obtain ⟨-, ⟨-, rfl⟩ | ⟨-, -, -, rfl⟩⟩ := h <;> rfl

theorem Put.vol_of_inum_ne {w : View} {k : Fin ninode} {i : ℕ} (h : Put v k w) (hi : i ≠ v.inum k) :
    w.vol i = v.vol i := by
  obtain ⟨-, ⟨-, rfl⟩ | ⟨-, -, -, rfl⟩⟩ := h
  · rfl
  · exact update_of_ne hi _ _

end

/-! ### `namex` -/

/-- The inode has an entry in the cache. -/
def View.Cached (v : View) (i : ℕ) : Prop := ∃ k, 0 < v.ref k ∧ v.inum k = i

/-- There is an entry that is not in use, apart from one for the inode. -/
def View.Spare (v : View) (i : ℕ) : Prop :=
  ∃ k l, v.ref k = 0 ∧ v.ref l = 0 ∧ (k ≠ l ∨ v.Cached i)

/-- A path can be followed to its end: the inodes on it are allocated, and each of them finds a
place in the cache while the one before it is in use. -/
def View.Walk (v : View) (parent : Bool) : ℕ → List Name → Prop
  | _, [] => True
  | i, name :: rest => (v.vol i).isSome = true ∧
    (¬ (parent ∧ rest = []) → ∀ j, lookupIn v.vol i name = some j →
      (j = i ∨ v.Cached j ∨ v.Spare i) ∧ v.Walk parent j rest)

/-- The directories have whole entries. -/
def View.Dirs (v : View) : Prop := ∀ i nd, v.vol i = some nd → nd.type = tDir → nd.Whole

/-- What a search leaves behind: a reference to the inode that it returns, and nothing else. -/
structure Search (v₀ : View) (l : Fin ninode → Bool) (parent : Bool) (i : ℕ) (path : Name)
    (r : Option (Fin ninode × Name)) (s' : State) : Prop where
  good : Good s'
  holds : Holds v₀ (r.elim 0 fun p => 0 + Pi.single p.1 1) (view s')
  lock : locks s' = l
  leads : Leads (· = v₀.vol) parent i path (r.map fun p => ((view s').inum p.1, p.2))
  /-- Nothing has stopped the search. -/
  walk : v₀.Walk parent i (components path)

section

variable {v₀ v : View} {E : Panic → Prop} {s : State} {cwd ip : Fin ninode} {i j : ℕ} {parent : Bool}
  {path : Name}

theorem release_locks {s₁ : State} (hfree : locks s ip = false)
    (hlock : locks s₁ = update (locks s) ip true) : update (locks s₁) ip false = locks s := by
  rw [hlock, update_idem, ← hfree, update_eq_self]

/-- The inode has an entry when the function has no reference but one to another inode, in terms
of the view before the search. -/
theorem Holds.available_iff (h : Holds v₀ (0 + Pi.single ip 1) v) (hv : v.Sound) (hinum : v.inum ip = i) :
    v.Available j ↔ j = i ∨ v₀.Cached j ∨ v₀.Spare i := by
  have hself := congrFun h.ref ip
  have hother : ∀ k, k ≠ ip → v.ref k = v₀.ref k := by
    intro k hk
    rw [h.ref]
    simp [hk]
  simp only [Pi.add_apply, Pi.zero_apply, Pi.single_eq_same] at hself
  constructor
  · rintro ⟨k, hk | ⟨hk, hj⟩⟩
    · have hne : k ≠ ip := by
        rintro rfl
        omega
      rw [hother k hne] at hk
      by_cases hzero : v₀.ref ip = 0
      · exact .inr (.inr ⟨k, ip, hk, hzero, .inl hne⟩)
      · have hip : 0 < v₀.ref ip := by omega
        exact .inr (.inr ⟨k, k, hk, hk, .inr ⟨ip, hip, (h.inum ip hip).symm.trans hinum⟩⟩)
    · by_cases hne : k = ip
      · rw [hne, hinum] at hj
        exact .inl hj.symm
      · rw [hother k hne] at hk
        exact .inr (.inl ⟨k, hk, (h.inum k hk).symm.trans hj⟩)
  · rintro (rfl | ⟨k, hk, hj⟩ | ⟨k, l, hk, hl, hkl⟩)
    · exact ⟨ip, .inr ⟨by omega, hinum⟩⟩
    · refine ⟨k, .inr ⟨?_, (h.inum k hk).trans hj⟩⟩
      rw [h.ref]
      exact Nat.add_pos_left hk _
    · by_cases hne : k = ip
      · subst hne
        obtain hkl | ⟨m, hm, hmi⟩ := hkl
        · exact ⟨l, .inl (by rw [hother l hkl.symm, hl])⟩
        · -- the entry of the inode would be a second one for it
          have hpos : 0 < v.ref m := by
            rw [h.ref]
            exact Nat.add_pos_left hm _
          obtain rfl := hv.unique m k hpos h.ref_pos (((h.inum m hm).trans hmi).trans hinum.symm)
          omega
      · exact ⟨k, .inl (by rw [hother k hne, hk])⟩

/-- A search goes on in the inode that it has found. -/
theorem Search.next {l : Fin ninode → Bool} {name rest : Name} {nd : Node} {off : ℕ}
    {r : Option (Fin ninode × Name)} {s' : State} (h : Search v₀ l parent j rest r s')
    (helem : skipelem path = some (name, rest)) (hnode : v₀.vol i = some nd) (htype : nd.type = tDir)
    (hmore : ¬ (parent ∧ rest = [])) (hfound : nd.lookup name = some (j, off))
    (havail : j = i ∨ v₀.Cached j ∨ v₀.Spare i) : Search v₀ l parent i path r s' := by
  refine ⟨h.good, h.holds, h.lock, .next rfl helem hnode htype hmore hfound h.leads, ?_⟩
  rw [(components_of_skipelem helem).1]
  refine ⟨by rw [hnode]; rfl, fun _ j' hj' => ?_⟩
  obtain rfl : j = j' := by simpa [lookupIn, hnode, htype, hfound] using hj'
  exact ⟨havail, h.walk⟩

/-- The loop of `namex`. -/
theorem wp_namexLoop (E : Panic → Prop) (parent : Bool) (htree : v₀.Tree) {fuel : ℕ} :
    ∀ {s : State} {ip : Fin ninode} (path : Name), path.length < fuel → Good s →
      Holds v₀ (0 + Pi.single ip 1) (view s) → (MayPanic E ∨ (v₀.Dirs ∧ (∀ k, locks s k = false) ∧
        v₀.Walk parent ((view s).inum ip) (components path))) →
      wp (namexLoop parent fuel ip path) E (Search v₀ (locks s) parent ((view s).inum ip) path) s := by
  induction fuel with
  | zero => exact fun _ hfuel => absurd hfuel (Nat.not_lt_zero _)
  | succ fuel ih =>
    intro s ip path hfuel hg h hE
    rw [namexLoop]
    cases helem : skipelem path with
    | none =>
      simp only
      have hwalk : v₀.Walk parent ((view s).inum ip) (components path) := by
        rw [components_of_skipelem_none helem]
        trivial
      have hend : Leads (· = v₀.vol) parent ((view s).inum ip) path
          (if parent then none else some ((view s).inum ip, [])) := .done helem
      refine wp_ite (fun hparent => ?_) fun hparent => wp_pure ?_
      · rw [if_pos hparent] at hend
        refine wp_bind (hg.wp_iput h.ref_pos fun s' hg' hput hlocks => wp_pure ?_)
        exact ⟨hg', h.put hg.sound hput, hlocks, hend, hwalk⟩
      · rw [if_neg hparent] at hend
        exact ⟨hg, h, rfl, hend, hwalk⟩
    | some elem =>
      obtain ⟨name, rest⟩ := elem
      obtain ⟨hcons, hend⟩ := components_of_skipelem helem
      simp only
      rw [hcons] at hE
      have hlive : ((view s).vol ((view s).inum ip)).isSome = (v₀.vol ((view s).inum ip)).isSome := by
        rw [h.vol]
      refine wp_bind (hg.wp_ilock (hE.imp_right fun hc => ⟨h.ref_pos, hc.2.1 ip, hlive ▸ hc.2.2.1⟩)
        fun s₁ hg₁ hview₁ hlocks₁ hpos hfree hsome => wp_bind (wp_get ?_))
      have hdone := release_locks hfree hlocks₁
      have hheld : locks s₁ ip = true := by rw [hlocks₁, update_self]
      have h₁ : Holds v₀ (0 + Pi.single ip 1) (view s₁) := by
        rw [hview₁]
        exact ⟨h.vol, h.ref, h.inum, h.kept⟩
      have hvalid₁ : (view s₁).valid ip = true := by simp [hview₁, View.lock]
      have hinum₁ : (view s₁).inum = (view s).inum := by rw [hview₁]; rfl
      have hat := hg₁.at h₁.ref_pos hvalid₁
      have hnode := hat.node
      rw [h₁.vol] at hnode
      rw [← hinum₁] at hE hsome hlive ⊢
      rw [hlive] at hsome
      set nd := fileOf s₁.disk (s₁.icache ip).d with hnd
      -- the search ends here with nothing, and `Walk` says nothing about the rest
      have hstop : lookupIn v₀.vol ((view s₁).inum ip) name = none →
          v₀.Walk parent ((view s₁).inum ip) (components path) := by
        intro hnone
        rw [hcons]
        exact ⟨hsome, fun _ j hj => nomatch hnone.symm.trans hj⟩
      refine wp_ite (fun htype => ?_) fun htype => ?_
      · refine wp_bind (hg₁.wp_iunlockput (.inr hheld) h₁.ref_pos fun s' hg' hput hlocks => wp_pure ?_)
        exact ⟨hg', h₁.put hg₁.sound hput, hlocks.trans hdone, .notDir rfl helem hnode htype,
          hstop (by rw [lookupIn, hnode]; exact if_neg htype)⟩
      · have hdir : nd.type = tDir := not_not.mp htype
        refine wp_ite (fun hlast => ?_) fun hmore => ?_
        · refine wp_bind (hg₁.wp_iunlock (.inr ⟨hheld, h₁.ref_pos⟩) fun s' hg' hview' hlocks => wp_pure ?_)
          refine ⟨hg', hview' ▸ h₁, hlocks.trans hdone, ?_, ?_⟩
          · simp only [map_some, hview']
            exact .last rfl helem hnode hdir hlast
          · rw [hcons]
            exact ⟨hsome, fun hmore => absurd ⟨hlast.1, hend.mpr hlast.2⟩ hmore⟩
        · have hfollow : ∀ {i off}, nd.lookup name = some (i, off) →
              lookupIn v₀.vol ((view s₁).inum ip) name = some i := by
            intro i off hfound
            simp [lookupIn, hnode, hdir, hfound]
          have hrest : ¬ (parent ∧ components rest = []) := by rwa [hend]
          refine wp_bind (h₁.wp_dirlookup htree hat (hE.imp_right fun hc =>
            ⟨hdir, hc.1 _ nd hnode hdir, fun i off hfound => ?_⟩) ?_ ?_)
          · exact (h₁.available_iff hg₁.sound rfl).mpr (hc.2.2.2 hrest i (hfollow hfound)).1
          · intro hmiss
            refine wp_bind (hg₁.wp_iunlockput (.inr hheld) h₁.ref_pos fun s' hg' hput hlocks => wp_pure ?_)
            exact ⟨hg', h₁.put hg₁.sound hput, hlocks.trans hdone,
              .miss rfl helem hnode hdir hmore hmiss,
              hstop (by simp [lookupIn, hnode, hmiss])⟩
          · intro i off next s₂ hfound hg₂ hgot h₂ hlocks₂
            have havail : i = (view s₁).inum ip ∨ v₀.Cached i ∨ v₀.Spare ((view s₁).inum ip) := by
              rw [← h₁.available_iff hg₁.sound rfl]
              obtain ⟨hpos, hinum, -⟩ | ⟨hunused, -, -⟩ := hgot
              · exact ⟨next, .inr ⟨hpos, hinum⟩⟩
              · exact ⟨next, .inl hunused⟩
            rw [add_right_comm] at h₂
            rw [← hlocks₂] at hheld hdone
            refine wp_bind (hg₂.wp_iunlockput (.inr hheld) h₂.ref_pos fun s₃ hg₃ hput hlocks₃ => ?_)
            have h₃ := h₂.put hg₂.sound hput
            have hinum₃ : (view s₃).inum next = i := by rw [hput.inum_eq, hgot.inum]
            rw [hdone] at hlocks₃
            have hshort := skipelem_length helem
            refine wp_mono (ih _ (by omega) hg₃ h₃ (hE.imp_right fun hc => ⟨hc.1, ?_, ?_⟩)) ?_
            · rw [hlocks₃]
              exact hc.2.1
            · rw [hinum₃]
              exact (hc.2.2.2 hrest i (hfollow hfound)).2
            · intro r s' hs'
              rw [hlocks₃, hinum₃] at hs'
              exact hs'.next helem hnode hdir hmore hfound havail

theorem Good.wp_namex (hg : Good s) (htree : (view s).Tree) (hcwd : 0 < (view s).ref cwd)
    (hE : MayPanic E ∨ ((view s).Dirs ∧ (∀ k, locks s k = false) ∧
      (path.head? = some slash → (view s).Available rootino) ∧
      (view s).Walk parent ((view s).start cwd path) (components path))) :
    wp (namex cwd path parent) E (fun r s' =>
      Search (view s) (locks s) parent ((view s).start cwd path) path r s' ∧
        (path.head? = some slash → (view s).Available rootino)) s := by
  unfold namex namexStart
  unfold View.start at *
  split_ifs at hE ⊢ with hslash
  · refine wp_bind (hg.wp_iget (hE.imp_right fun hc => hc.2.2.1 hslash) (by decide)
      fun k s₁ hg₁ hgot hlocks => ?_)
    have hloop := wp_namexLoop E parent htree path (Nat.lt_succ_self _) hg₁
      ((Holds.refl _).got htree.root hgot)
    rw [hgot.inum, hlocks] at hloop
    refine wp_mono (hloop (hE.imp_right fun hc => ⟨hc.1, hc.2.1, hc.2.2.2⟩)) fun r s' hs' => ⟨hs', fun _ => ?_⟩
    obtain ⟨hpos, hinum, -⟩ | ⟨hunused, -, -⟩ := hgot
    · exact ⟨k, .inr ⟨hpos, hinum⟩⟩
    · exact ⟨k, .inl hunused⟩
  · refine wp_bind (hg.wp_idup hcwd fun s₁ hg₁ hview₁ hlocks => ?_)
    have hinum : (view s₁).inum cwd = (view s).inum cwd := by rw [hview₁]; rfl
    have hloop := wp_namexLoop E parent htree path (Nat.lt_succ_self _) hg₁
      ((Holds.refl _).got (.inr ⟨cwd, hcwd, rfl⟩) (.inl ⟨hcwd, rfl, hview₁⟩))
    rw [hinum, hlocks] at hloop
    exact wp_mono (hloop (hE.imp_right fun hc => ⟨hc.1, hc.2.1, hc.2.2.2⟩))
      fun r s' hs' => ⟨hs', fun h => absurd h hslash⟩

end

/-! ### Entries and inodes -/

/-- The offset at which `dirlink` writes an entry. -/
def Node.room (nd : Node) : ℕ :=
  ((offsets 0 nd.size).find? fun off => (nd.dirent off).inum = 0).getD
    (direntSize * ((nd.size + (direntSize - 1)) / direntSize))

/-- A directory without entries behind the first two. -/
def Node.noEntries (nd : Node) : Bool :=
  (offsets (2 * direntSize) nd.size).all fun off => (nd.dirent off).inum = 0

/-- A new file. -/
def Node.new (type : BitVec 16) : Node := ⟨type, 0, 0, 0, 0, fun _ => 0⟩

section

variable {E : Panic → Prop} {s : State} {k : Fin ninode}

variable {nd : Node}

/-- A loop over entries that looks at their inode numbers. -/
theorem At.wp_entries (h : At s k nd) {first : ℕ} (hfirst : direntSize ∣ first)
    (hE : MayPanic E ∨ nd.Whole) {e : Panic}
    (he : e ≠ .freeingFreeBlock) {α : Type} {f : ℕ → Option α} {c : ℕ → Dirent → Option α}
    (hf : ∀ off, c off (nd.dirent off) = f off) {Q : Option α → State → Prop}
    (hQ : Q ((offsets first nd.size).findSome? f) s) :
    wp ((offsets first nd.size).findSomeM? fun off => do
      let de ← readDirent k off e
      return c off de) E Q s := by
  refine wp_findSomeM (I := fun rest t => t = s ∧ rest ⊆ offsets first nd.size ∧
    Q (rest.findSome? f) s) ?_ ?_ ⟨rfl, List.Subset.refl _, hQ⟩
  · rintro off rest t ⟨rfl, hsub, hrest⟩
    obtain ⟨hmem, hsub⟩ := cons_subset.mp hsub
    refine wp_bind (h.wp_readDirent (hE.imp_right fun hwhole => ⟨hwhole.within hfirst hmem, hwhole.le⟩) he fun _ => wp_pure ?_)
    rw [List.findSome?_cons] at hrest
    rw [hf]
    refine ⟨?_, ?_⟩
    · intro b hb
      rw [hb] at hrest
      exact hrest
    · intro hnone
      rw [hnone] at hrest
      exact ⟨rfl, hsub, hrest⟩
  · rintro t ⟨rfl, -, hend⟩
    exact hend

/-- A directory has no free entry. -/
def Node.Full (nd : Node) : Prop := ∀ off ∈ offsets 0 nd.size, (nd.dirent off).inum ≠ 0

/-- The new entry goes to a free one, or behind the last one when there is none. -/
theorem Node.Whole.room_cases (h : nd.Whole) :
    (nd.room ∈ offsets 0 nd.size ∧ (nd.dirent nd.room).inum = 0) ∨ (nd.room = nd.size ∧ nd.Full) := by
  unfold Node.room
  cases hfound : (offsets 0 nd.size).find? fun off => (nd.dirent off).inum = 0 with
  | none =>
    refine .inr ⟨?_, fun off hoff => by simpa using List.find?_eq_none.mp hfound off hoff⟩
    obtain ⟨m, hm⟩ := h.dvd
    simp only [getD_none]
    unfold direntSize at *
    omega
  | some off => exact .inl ⟨mem_of_find?_eq_some hfound, by simpa using List.find?_some hfound⟩

theorem Node.Whole.room_le (h : nd.Whole) : nd.room ≤ nd.size := by
  obtain ⟨hmem, -⟩ | ⟨heq, -⟩ := h.room_cases
  · exact (Nat.le_add_right _ _).trans (h.within (Nat.dvd_zero _) hmem)
  · exact heq.le

/-- `dirlink` behind its check of the name. -/
theorem At.wp_addEntry (h : At s k nd)
    (hE : MayPanic E ∨ (nd.Whole ∧ nd.room + direntSize ≤ maxfile * bsize ∧
      missing s.disk (s.icache k).d (rangePos nd.room direntSize) ≤ freeBlocks s.disk))
    {name : Name} {i : ℕ} {Q : ℤ → State → Prop}
    (hQ : ∀ s', Good s' → nd.room ≤ nd.size → nd.room + direntSize ≤ maxfile * bsize →
      view s' = (view s).mapNode ((view s).inum k)
        (fun nd => nd.write (Dirent.bytes i name) nd.room direntSize) → Q 0 s') :
    wp (addEntry k name i) E Q s := by
  obtain rfl := h.fileOf_eq
  set nd := fileOf s.disk (s.icache k).d with hnd
  have hsize : (s.icache k).d.size.toNat = nd.size := rfl
  unfold addEntry
  refine wp_bind (wp_get ?_)
  rw [hsize]
  refine wp_bind (h.wp_entries (Nat.dvd_zero _) (hE.imp_right And.left)
    (e := .dirlinkRead) nofun (f := fun off => if (nd.dirent off).inum = 0 then some off else none)
    (c := fun off de => if de.inum = 0 then some off else none) (fun _ => rfl) ?_)
  have hroom : ((offsets 0 nd.size).findSome? fun off =>
      if (nd.dirent off).inum = 0 then some off else none).getD
        (direntSize * ((nd.size + (direntSize - 1)) / direntSize)) = nd.room := by
    have hguard : (fun off => if (nd.dirent off).inum = 0 then some off else none) =
        Option.guard fun off => decide ((nd.dirent off).inum = 0) := by
      funext off
      simp [Option.guard]
    rw [hguard, List.findSome?_guard, Node.room]
  rw [hroom]
  have hrefused : ¬ (nd.room ≤ nd.size ∧ nd.room + direntSize ≤ maxfile * bsize) →
      wp (throw .dirlink : FsM ℤ) E Q s :=
    fun hnot => wp_throw_or hE fun hc => hnot ⟨hc.1.room_le, hc.2.1⟩
  by_cases hle : nd.room ≤ nd.size
  · have hoff : nd.room < 2 ^ 32 := by
      omega
    refine wp_bind (h.wp_writei hoff (by decide) (hE.imp_right fun hc => hc.2.2) ?_ ?_)
    · intro s' h' _ hmax hview
      refine wp_ite (fun hne => absurd rfl hne) fun _ => wp_pure (hQ s' h' hle hmax ?_)
      rw [hview, View.mapNode, View.mapNode, h.node]
      rfl
    · intro hnot
      exact wp_ite (fun _ => hrefused hnot) fun heq => absurd (by decide) heq
  · refine wp_bind ?_
    unfold writei
    refine wp_bind (wp_get ?_)
    rw [if_pos (.inl (by omega))]
    exact wp_pure (wp_ite (fun _ => hrefused fun hc => hle hc.1) fun heq => absurd (by decide) heq)

theorem At.wp_isdirempty (h : At s k nd) (hE : MayPanic E) {Q : Bool → State → Prop}
    (hQ : Q nd.noEntries s) : wp (isdirempty k) E Q s := by
  obtain rfl := h.fileOf_eq
  set nd := fileOf s.disk (s.icache k).d with hnd
  have hsize : (s.icache k).d.size.toNat = nd.size := rfl
  unfold isdirempty
  refine wp_bind (wp_get ?_)
  rw [hsize]
  refine wp_bind (h.wp_entries (Nat.dvd_mul_left _ _) (.inl hE) (e := .isdiremptyReadi) nofun
    (f := fun off => if (nd.dirent off).inum ≠ 0 then some () else none)
    (c := fun _ de => if de.inum ≠ 0 then some () else none) (fun _ => rfl) (wp_pure ?_))
  have hempty : ((offsets (2 * direntSize) nd.size).findSome? fun off =>
      if (nd.dirent off).inum ≠ 0 then some () else none).isNone = nd.noEntries := by
    rw [Bool.eq_iff_iff, isNone_iff_eq_none, List.findSome?_eq_none_iff, Node.noEntries,
      List.all_eq_true]
    simp
  rw [hempty]
  exact hQ

theorem Good.wp_ialloc (h : Good s) (hE : MayPanic E) {type : BitVec 16}
    (htype : type ≠ 0) {Q : Fin ninode → State → Prop}
    (hQ : ∀ i k s', Good s' → 0 < i → i < ninodes → (view s).vol i = none →
      Got { view s with vol := update (view s).vol i (some (.new type)) } i k (view s') →
      Q k s') :
    wp (ialloc type) E Q s := by
  obtain ⟨g, hrep⟩ := h
  unfold ialloc
  refine wp_bind (wp_get ?_)
  cases hfree : freeInode s.disk with
  | none => exact wp_throw (hE _ (by simp))
  | some i =>
    obtain ⟨hzero, hi, hunused⟩ := freeInode_eq_some hfree
    obtain ⟨-, hlt⟩ := iblock_range hi
    have hblock : iblock i < fsSize := by
      unfold bmapstart at hlt
      unfold fsSize
      omega
    have hvol : (view s).vol i = none := by
      change diskVol s.disk i = none
      rw [diskVol, if_pos hi, node, if_pos hunused]
    refine wp_bind (wp_bread hblock (wp_bind (wp_logWrite ?_)))
    obtain ⟨hrep', hvol'⟩ := hrep.alloc hi (by rw [← hrep.synced i hi (by simp)]; exact hunused)
      (t := { s with
        disk := update s.disk (iblock i)
          (writeDinode (s.disk (iblock i)) (i % ipb) { Dinode.zero with type := type })
        logged := s.logged ++ [iblock i] }) rfl rfl
    refine wp_iget ⟨_, hrep'⟩ (.inl hE) hi fun k s' h' hgot _ => hQ i k s' h' hzero hi hvol ?_
    have hnew : ∀ disk, node disk { Dinode.zero with type := type } = some (.new type) := by
      intro disk
      rw [node, if_neg (by exact htype)]
      have hdata : fileByte disk { Dinode.zero with type := type } = fun _ => 0 := by
        funext off
        rw [fileByte, if_neg]
        simp [Dinode.zero]
      rw [hdata]
      rfl
    rw [hrep'.vol_eq, hrep.vol_eq, hnew] at hvol'
    have hview : view { s with
        disk := update s.disk (iblock i)
          (writeDinode (s.disk (iblock i)) (i % ipb) { Dinode.zero with type := type })
        logged := s.logged ++ [iblock i] } =
        { view s with vol := update (view s).vol i (some (.new type)) } := by
      unfold view
      rw [hvol']
    rwa [hview] at hgot

end

end Xv6Draw.Fs
