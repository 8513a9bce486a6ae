import Acng.HeadStorage

namespace Acng
open Lib

/-- A buffer whose data begins at its first byte. -/
structure Acbuf where
  data : Bytes := []
  m_nCapacity : Nat := 0
deriving DecidableEq, Repr

/-- What `read` gives: bytes (none at the end of the file), an interruption or another error. -/
inductive SysRead
  | data (bytes : Bytes)
  | interrupted
  | failed (errno : ℕ+)

def SysRead.bytes : SysRead → Bytes
  | data bytes => bytes
  | _ => []

def SysRead.isFailed : SysRead → Bool
  | failed _ => true
  | _ => false

/-- What the system tells in `initFromFile`. If `stat` fails then `st_size` is what was there in the memory. -/
structure FileCalls where
  statOk : Bool
  st_size : Int
  opened : Bool
  realloced : Bool
  reads : Nat → SysRead

def unsignedInt (n : Int) : Nat := (n % 2 ^ 32).toNat

namespace Acbuf

def size (b : Acbuf) : Nat := b.data.length % 2 ^ 32

def freecapa (b : Acbuf) : Nat := unsignedInt (b.m_nCapacity - b.data.length)

def clear (b : Acbuf) : Acbuf := { b with data := [] }

/-- `setsize` with an unsigned int. None: the terminator is put far behind the memory that one byte more than the
largest capacity gives. -/
def setsize (b : Acbuf) (realloced : Bool) (c : Nat) : Option (Bool × Acbuf) :=
  if b.m_nCapacity = c then some (true, b)
  else if !realloced then some (false, b)
  else if (c + 1) % 2 ^ 32 = 0 then none
  else some (true, { b with m_nCapacity := c })

/-- A round of `sysread`, which is repeated after an interruption. -/
def sysread (b : Acbuf) : SysRead → Option (Int × Acbuf)
  | .interrupted => none
  | .failed errno => some (-errno, b)
  | .data bytes =>
    let bytes := bytes.take b.freecapa
    some (bytes.length, { b with data := b.data ++ bytes })

/-- The loop of `initFromFile` with the results of so many calls of `read`. -/
def readAll (b : Acbuf) : List SysRead → Option (Bool × Acbuf)
  | [] => if b.freecapa = 0 then some (true, b) else none
  | read :: reads =>
    if b.freecapa = 0 then some (true, b)
    else
      match b.sysread read with
      | none => b.readAll reads
      | some (n, b) => if n < 0 then some (false, b) else b.readAll reads

/-- `initFromFile` with so many calls of `read` at most. -/
def initFromFile (b : Acbuf) (io : FileCalls) (limit : Int) (calls : Nat) : Option (Bool × Acbuf) :=
  if !io.opened then some (false, b)
  else
    match b.clear.setsize io.realloced (unsignedInt (min limit io.st_size)) with
    | none => none
    | some (false, b) => some (false, b)
    | some (true, b) =>
      (b.readAll ((List.range calls).map io.reads)).map (fun (ok, b) => (ok && b.size == io.st_size, b))

end Acbuf

end Acng
