import Acng.Header

namespace Acng.Header
open Lib

/-- `header::Load` on an object that may hold the fields of an earlier head. -/
def loadOn (self : Header) (input : Bytes) (unk : UnkMap := none) : Int × LineState :=
  let st : LineState := { hd := self, unk }
  if input.length < 9 then (0, st)
  else
    match frontType input with
    | none => (-1, { st with hd := { self with type := .invalid } })
    | some (type, proto, n) =>
      let hd : Header := { self with type, proto := proto.getD self.proto }
      match slices crlf 0 (input.drop n) with
      | [] => (0, { st with hd })
      | it :: rest =>
        match firstLine hd it with
        | none => (0, { st with hd })
        | some hd => loadLines { st with hd } (n + it.length + 2) rest

theorem load_eq (input : Bytes) (unk : UnkMap) : load input unk = loadOn {} input unk := rfl

/-- Whether there is something that a folded line is appended to. -/
def LineState.slot (st : LineState) : Bool :=
  match st.lastSetId with
  | .max => false
  | .unkExport => st.unk.isSome
  | .pos p => (st.hd.h p).isSome

/-- For every run of the branch for folded lines, whether the value it appends
to exists. Behind the first line there is none to append to and the branch
leaves with an error before it touches one. -/
def appends (st : LineState) : List Bytes → List Bool
  | [] => []
  | it :: rest =>
    if it.isEmpty then []
    else if isFolded it then
      if st.lastSetId = .max then []
      else
        st.slot ::
          match foldLine st (trimBoth it) with
          | .error _ => []
          | .ok st' => appends st' rest
    else
      match fieldLine st (trimBoth it) with
      | .error _ => []
      | .ok st' => appends st' rest

/-- The same for a whole call of `header::Load`. -/
def appendsOn (self : Header) (input : Bytes) (unk : UnkMap := none) : List Bool :=
  if input.length < 9 then []
  else
    match frontType input with
    | none => []
    | some (type, proto, n) =>
      match slices crlf 0 (input.drop n) with
      | [] => []
      | it :: rest =>
        match firstLine { self with type, proto := proto.getD self.proto } it with
        | none => []
        | some hd => appends { hd, unk } rest

/-- What a call of `header::Load` returns; `none` when a null pointer given to
`strappend` ends the process instead. -/
def returned (self : Header) (input : Bytes) (unk : UnkMap := none) : Option Int :=
  if (appendsOn self input unk).all (fun b => b) then some (loadOn self input unk).1 else none

end Acng.Header
