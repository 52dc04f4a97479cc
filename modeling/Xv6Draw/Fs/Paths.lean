import Xv6Draw.Fs.FailedCalls

/-!
# Paths

`namei` and `nameiparent` return what is found by looking up the components of a path one after
another, and keep no reference and no lock but the reference that they return. They do so
whenever they return. They stop with a panic in two situations: every entry of the inode cache is in
use and the next inode is not in the cache, or the path goes through an inode that is free. The
latter can be the parent of a current directory that has been removed.
-/

namespace Xv6Draw.Fs

open Function Hoare Option

/-- A consistent file system in which nothing is locked, and the current directory of a process. -/
structure Settled (s : State) (cwd : Fin ninode) : Prop where
  good : Good s
  /-- The directories name inodes that are kept. -/
  tree : (view s).Tree
  /-- The directories have whole entries. -/
  dirs : (view s).Dirs
  unlocked : ∀ k, locks s k = false
  /-- The current directory is in use. -/
  cwd : 0 < (view s).ref cwd

/-- Nothing stops a search for a path. -/
structure Passable (s : State) (cwd : Fin ninode) (path : Name) (parent : Bool) : Prop where
  /-- The root is in the cache, or there is an entry for it. -/
  root : path.head? = some slash → (view s).Available rootino
  /-- The inodes of the path. -/
  walk : (view s).Walk parent ((view s).start cwd path) (components path)

/-- A reference to the inode that is returned is the only trace of a search. -/
structure Balanced (s s' : State) (ip : Option (Fin ninode)) : Prop where
  vol : (view s').vol = (view s).vol
  ref : (view s').ref = (view s).ref + ip.elim 0 (Pi.single · 1)
  inum : ∀ k, 0 < (view s).ref k → (view s').inum k = (view s).inum k
  lock : locks s' = locks s

section

variable {s : State} {cwd : Fin ninode} {path : Name} {parent : Bool}

theorem Search.balanced {s' : State} {i : ℕ} {r : Option (Fin ninode × Name)}
    (h : Search (view s) (locks s) parent i path r s') : Balanced s s' (r.map Prod.fst) := by
  refine ⟨h.holds.vol, ?_, h.holds.inum, h.lock⟩
  rw [h.holds.ref]
  cases r with
  | none => rfl
  | some p => exact congrArg _ (zero_add _)

/-- `namex` returns when nothing stops it, and then with what is to be found. -/
theorem Settled.wp_namex {E : Panic → Prop} (h : Settled s cwd)
    (hE : MayPanic E ∨ Passable s cwd path parent) :
    wp (namex cwd path parent) E (fun r s' => (r.map (fun p => ((view s').inum p.1, p.2)) =
        resolve (view s).vol parent ((view s).start cwd path) (components path) ∧
      Balanced s s' (r.map Prod.fst)) ∧ Passable s cwd path parent) s := by
  refine wp_mono (h.good.wp_namex h.tree h.cwd (hE.imp_right fun hp =>
    ⟨h.dirs, h.unlocked, hp.root, hp.walk⟩)) ?_
  rintro r s' ⟨hsearch, hroot⟩
  exact ⟨⟨hsearch.leads.eq_resolve, hsearch.balanced⟩, hroot, hsearch.walk⟩

end

end Xv6Draw.Fs
