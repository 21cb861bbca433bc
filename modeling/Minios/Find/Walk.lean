import Minios.Fs.Path
import Minios.Sysfile.Calls

/-! `user/find.c`: `find`, on files that do not change.

        find path:  open path ─▶ read entry ─▶ stat path/name ─▶ print, if it is the name
                        │            ▲ └─ free, "." or ".."          │
                        ▼            └───────── find path/name ◀─────┘ a directory
                    close at the end

    Every level keeps its directory open, and `stat` opens what it looks at for a moment. What is on the disk is a map
    from inode numbers to inodes, and what a path names is what `namei` finds there. -/

namespace Minios.Find
open Schemes Function Fs

open Sysfile (MAXPATH NOFILE NDEV)

/-! ### Files -/

structure World where
  node : ℕ → Node
  cwd : ℕ

/-- Look up a name in inode `i`, which must be a directory. -/
def World.lookupIn (w : World) (i : ℕ) (name : Name) : Option ℕ :=
  if (w.node i).type = T_DIR ∧ (w.node i).lookup name ≠ 0 then some ((w.node i).lookup name) else none

def World.start (w : World) (path : Str) : ℕ := if path.bytes.head? = some SLASH then ROOTINO else w.cwd

/-- The inode of a path, for a system call: `argstr` takes no path of `MAXPATH` bytes. -/
def World.namei (w : World) (path : Str) : Option ℕ :=
  if path.bytes.length < MAXPATH then (elems path).foldlM w.lookupIn (w.start path) else none

/-- What `open` opens: no device out of range. -/
def World.opens (w : World) (path : Str) : Option ℕ :=
  (w.namei path).filter fun i =>
    ¬ ((w.node i).type = T_DEVICE ∧ (2 ^ 15 ≤ (w.node i).major ∨ NDEV ≤ (w.node i).major))

/-- The descriptors in use. -/
abbrev Fds := ℕ → Bool

def fdalloc (fds : Fds) : Option ℕ := (List.range NOFILE).find? fun fd => fds fd = false

/-- `open(path, O_RDONLY)`: the descriptor and the inode. -/
def World.open (w : World) (fds : Fds) (path : Str) : Option (ℕ × ℕ × Fds) :=
  match w.opens path with
  | none => none
  | some i => match fdalloc fds with
    | none => none
    | some fd => some (fd, i, update fds fd true)

def close (fds : Fds) (fd : ℕ) : Fds := update fds fd false

/-- `stat`: the type of a file. -/
def World.stat (w : World) (fds : Fds) (path : Str) : Option ℕ × Fds :=
  match w.open fds path with
  | none => (none, fds)
  | some (fd, i, fds) => (some (w.node i).type, close fds fd)

/-- What `read` delivers of a directory, entry by entry. -/
def entries (nd : Node) : List Dirent := (List.range nd.entries).map nd.dirent

/-! ### `find` -/

theorem zero_not_mem_cstr : ∀ (n : ℕ) (f : ℕ → UInt8), 0 ∉ cstr n f
  | 0, _ => List.not_mem_nil
  | n + 1, f => by
      rw [cstr]
      split
      · exact List.not_mem_nil
      · rename_i h0
        rw [List.mem_cons, not_or]
        exact ⟨Ne.symm h0, zero_not_mem_cstr n _⟩

theorem length_cstr_le : ∀ (n : ℕ) (f : ℕ → UInt8), (cstr n f).length ≤ n
  | 0, _ => Nat.le_refl 0
  | n + 1, f => by
      rw [cstr]
      split
      · exact Nat.zero_le _
      · exact Nat.succ_le_succ (length_cstr_le n _)

/-- `memmove(p, de.name, DIRSIZ); p[DIRSIZ] = 0;` The string at `p`. -/
def name (de : Dirent) : Name := ⟨⟨de.key, zero_not_mem_cstr _ _⟩, length_cstr_le _ _⟩

/-- `path`, a slash, and a name. -/
def sub (path : Str) (n : Name) : Str :=
  ⟨path.bytes ++ SLASH :: n.bytes, by
    rw [List.mem_append, List.mem_cons]
    rintro (h | h | h)
    · exact path.noNul h
    · cases h
    · exact n.noNul h⟩

/-- What is printed: the errors and the names, or the command that is run for a name. -/
inductive Out where
  | cannotOpen (path : Str)
  | tooLong
  | cannotStat (path : Str)
  | found (path : Str)
  | exec (argv : List Str)

/-- What is done with a name that is found. -/
def report (cmd : Option (List Str)) (buf : Str) : Out := match cmd with
  | none => .found buf
  | some argv => .exec (argv ++ [buf])

/-- `sizeof buf` -/
abbrev BUFSIZE : ℕ := 512

section

variable (w : World) (target : Str) (cmd : Option (List Str)) (find : Fds → Str → Option (List Out × Fds))

/-- The loop's body for one entry. -/
def visit (path : Str) (fds : Fds) (de : Dirent) : Option (List Out × Fds) :=
  if de.inum = 0 then some ([], fds)
  else if name de = .dot ∨ name de = .dotdot then some ([], fds)
  else match w.stat fds (sub path (name de)) with
    | (none, fds) => some ([.cannotStat (sub path (name de))], fds)
    | (some type, fds) =>
      let shown := if (name de).bytes = target.bytes then [report cmd (sub path (name de))] else []
      if type = T_DIR then (find fds (sub path (name de))).map fun r => (shown ++ r.1, r.2) else some (shown, fds)

def scan (path : Str) : Fds → List Dirent → Option (List Out × Fds)
  | fds, [] => some ([], fds)
  | fds, de :: des => (visit w target cmd find path fds de).bind fun r =>
    (scan path r.2 des).map fun r' => (r.1 ++ r'.1, r'.2)

end

/-- `find(path, target, cmd_argv, cmd_argc)`, with a bound on the depth of recursion. -/
def find (w : World) (target : Str) (cmd : Option (List Str)) : ℕ → Fds → Str → Option (List Out × Fds)
  | 0, _, _ => none
  | fuel + 1, fds, path => match w.open fds path with
    | none => some ([.cannotOpen path], fds)
    | some (fd, i, fds) =>
      if path.bytes.length + 1 + DIRSIZ + 1 > BUFSIZE then some ([.tooLong], close fds fd)
      else (scan w target cmd (find w target cmd fuel) path fds (entries (w.node i))).map fun r => (r.1, close r.2 fd)

/-- The kernel's files, for a process in directory `cwd`: what a path names is what the kernel's `namei` finds. -/
def World.of (s : FS) (cwd : IPtr) : World := ⟨Fs.node s, (s.itable cwd).inum⟩

theorem namei_of (s : FS) (cwd : IPtr) {path : Str} (h : path.bytes.length < MAXPATH) :
    (World.of s cwd).namei path = Fs.walk s (Fs.start s cwd path) (elems path) := by
  rw [World.namei, if_pos h]
  rfl

end Minios.Find
