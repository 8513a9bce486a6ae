import Acng.HttpUrl

namespace Acng
open Lib

inductive FileKind
  | reg | dir | lnk | other
deriving DecidableEq, Repr

/-- `struct stat`, as far as the walk looks at it. -/
structure Stat where
  st_dev : Nat
  st_ino : Nat
  st_mode : FileKind
deriving DecidableEq, Repr

def Stat.id (st : Stat) : Nat × Nat := (st.st_dev, st.st_ino)

/-- What the system tells of paths. The names of a directory come in the order of `readdir`. -/
structure Fs where
  lstat : Bytes → Option Stat
  stat : Bytes → Option Stat
  readdir : Bytes → Option (List Bytes)

/-- The functions of an `IFileHandler`. -/
inductive HandlerFunc
  | processRegular | processOthers | processDirBefore | processDirAfter
deriving DecidableEq, Repr

/-- A handler with a state of its own. -/
structure FileHandler (σ : Type) where
  process : HandlerFunc → σ → Bytes → Stat → Bool × σ

/-- A call of the handler and its answer. -/
structure HandlerCall where
  func : HandlerFunc
  sPath : Bytes
  answer : Bool
deriving DecidableEq, Repr

/-- The handler, the filter for double visits, and what was done: the calls and the directories that were read. -/
structure WalkState (σ : Type) where
  handler : σ
  filter : List (Nat × Nat) := []
  calls : List HandlerCall := []
  listed : List (Nat × Nat) := []

structure WalkMode where
  stupidfs : Bool
  bFilterDoubleDirVisit : Bool
  bFollowSymlinks : Bool

variable {σ : Type}

def WalkState.call (h : FileHandler σ) (func : HandlerFunc) (sPath : Bytes) (st : Stat) (w : WalkState σ) :
    Bool × WalkState σ :=
  let (answer, handler) := h.process func w.handler sPath st
  (answer, { w with handler, calls := w.calls ++ [⟨func, sPath, answer⟩] })

/-- The `stat` or `lstat` of a node. -/
def Fs.look (fs : Fs) (mode : WalkMode) (sPath : Bytes) : Option Stat :=
  if mode.bFollowSymlinks then fs.stat sPath else fs.lstat sPath

/-- The filter with a directory that is new. -/
def WalkState.emplace (mode : WalkMode) (id : Nat × Nat) (w : WalkState σ) : WalkState σ :=
  if mode.bFilterDoubleDirVisit then { w with filter := id :: w.filter } else w

/-- The path of a child. -/
def childPath (mode : WalkMode) (sPath d_name : Bytes) : Bytes :=
  sPath ++ lit "/" ++ (if mode.stupidfs then urlUnescape d_name else d_name)

/-- The loop over the names of a directory. -/
def walkNames (walkChild : Bytes → WalkState σ → Option (Bool × WalkState σ)) :
    List Bytes → WalkState σ → Option (Bool × WalkState σ)
  | [], w => some (true, w)
  | d_name :: names, w =>
    if d_name = lit "." ∨ d_name = lit ".." then walkNames walkChild names w
    else
      match walkChild d_name w with
      | none => none
      | some (false, w) => some (false, w)
      | some (true, w) => walkNames walkChild names w

/-- `dnode::Walk` with so many levels at most. The parents are those that are in the chain of nodes. -/
def walk (fs : Fs) (h : FileHandler σ) (mode : WalkMode) :
    Nat → List (Nat × Nat) → Bytes → WalkState σ → Option (Bool × WalkState σ)
  | 0, _, _, _ => none
  | levels + 1, parents, sPath, w =>
    match fs.look mode sPath with
    | none => some (true, w)
    | some st =>
      if !mode.bFollowSymlinks && st.st_mode = .lnk then some (true, w)
      else if st.st_mode = .reg then some (w.call h .processRegular sPath st)
      else if st.st_mode ≠ .dir then some (w.call h .processOthers sPath st)
      else
        let (ok, w) := w.call h .processDirBefore sPath st
        if !ok then some (false, w)
        -- seen this in the path before? symlink cycle?
        else if st.id ∈ parents then some (true, w)
        else if mode.bFilterDoubleDirVisit = true ∧ st.id ∈ w.filter then some (true, w)
        else
          let w := w.emplace mode st.id
          match fs.readdir sPath with
          | none => some (true, w)
          | some names =>
            (walkNames (fun d_name => walk fs h mode levels (st.id :: parents) (childPath mode sPath d_name))
              names { w with listed := w.listed ++ [st.id] }).map fun (bRet, w) =>
                let (ok, w) := w.call h .processDirAfter sPath st
                (ok && bRet, w)

def directoryWalk (fs : Fs) (h : FileHandler σ) (mode : WalkMode) (levels : Nat) (sRoot : Bytes)
    (handler : σ) : Option (Bool × WalkState σ) :=
  walk fs h mode levels [] sRoot { handler }

end Acng
