import Acng.Lib.Bytes

namespace Acng
open Lib

/-- A file that the walk through the cache comes across, with the parts of its `stat` that are used. -/
structure WalkedFile where
  path : Bytes
  ctime : Int
  mtime : Int
  blocks : Nat

structure PkgEntry where
  path : Bytes
  lastDate : Int
  blocks : Nat
deriving DecidableEq, Repr

/-- The settings. `isVolatile` stands for the two types of `GetFiletype` that are left out. -/
structure ShrinkCfg where
  trackfileuse : Bool
  incIfiles : Bool
  isVolatile : Bytes → Bool

/-- What the walk collects. -/
structure ShrinkScan where
  delQ : List PkgEntry := []
  related : List PkgEntry := []
  totalBlocks : Int := 0

def WalkedFile.isHead (file : WalkedFile) : Bool := (lit ".head").isSuffixOf file.path

def WalkedFile.pkgPath (file : WalkedFile) : Bytes :=
  if file.isHead then file.path.take (file.path.length - 5) else file.path

def WalkedFile.otherName (file : WalkedFile) : Bytes :=
  if file.isHead then file.pkgPath else file.path ++ lit ".head"

namespace ShrinkScan

/-- The receiver of the walk. -/
def receive (cfg : ShrinkCfg) (scan : ShrinkScan) (file : WalkedFile) : ShrinkScan :=
  let dateLatest := max file.ctime file.mtime
  if cfg.isVolatile file.pkgPath && !cfg.incIfiles then scan
  else
    match scan.related.find? (fun entry => entry.path == file.otherName) with
    | none =>
      if scan.related.any (fun entry => entry.path == file.path) then scan
      else { scan with related := scan.related ++ [⟨file.path, dateLatest, file.blocks⟩] }
    | some other =>
      -- the data file's time, or the one of its head
      let dateLatest :=
        if (cfg.trackfileuse && !file.isHead) || (!cfg.trackfileuse && file.isHead) then other.lastDate
        else dateLatest
      let bothBlocks := file.blocks + other.blocks
      { delQ := scan.delQ ++ [⟨file.pkgPath, dateLatest, bothBlocks⟩]
        related := scan.related.filter (fun entry => entry.path != file.otherName)
        totalBlocks := scan.totalBlocks + bothBlocks }

def walk (cfg : ShrinkCfg) (files : List WalkedFile) : ShrinkScan := files.foldl (receive cfg) {}

/-- The unmatched ones come in at the end. -/
def entries (scan : ShrinkScan) : List PkgEntry := scan.delQ ++ scan.related

end ShrinkScan

/-- The loop over the queue: the entries with the choice that is made, and the blocks that are left. -/
def shrinkLoop (wantedBlocks : Int) : Int → List PkgEntry → List (Bool × PkgEntry) × Int
  | totalBlocks, [] => ([], totalBlocks)
  | totalBlocks, entry :: delQ =>
    let todel := decide (totalBlocks > wantedBlocks)
    let totalBlocks := if todel then totalBlocks - entry.blocks else totalBlocks
    let (choices, totalBlocks) := shrinkLoop wantedBlocks totalBlocks delQ
    ((todel, entry) :: choices, totalBlocks)

/-- How `shrink` ends: with an exit code, with the percentage of nothing, or with what it has done. -/
inductive ShrinkEnd
  | failed (code : Nat)
  | divByZero
  | done (choices : List (Bool × PkgEntry)) (unlinked : List Bytes) (newSize : Option Int)

def shrink (cfg : ShrinkCfg) (wantedSize : Int) (dryrun apply verbose : Bool) (files : List WalkedFile)
    (delQ : List PkgEntry) : ShrinkEnd :=
  if !dryrun && !apply then .failed 97
  else if dryrun && apply then .failed 107
  else
    let totalBlocks := (ShrinkScan.walk cfg files).totalBlocks
    let wantedBlocks := wantedSize.tdiv 512
    if totalBlocks < wantedBlocks then .done (delQ.map (fun entry => (false, entry))) [] none
    else if verbose && totalBlocks = 0 then .divByZero
    else
      let (choices, totalBlocks) := shrinkLoop wantedBlocks totalBlocks delQ
      .done choices
        (if apply then (choices.filter (·.1)).flatMap (fun choice => [choice.2.path, choice.2.path ++ lit ".head"])
          else [])
        (if verbose then some (totalBlocks * 512) else none)

end Acng
