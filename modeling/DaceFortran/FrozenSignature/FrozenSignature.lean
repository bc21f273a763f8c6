/-
# The frozen signature of an SDFG

The snapshot `SDFGBuilder.build()` pins on an SDFG, the drift check the binding
generator runs against it, and `refreeze`, which replaces it after a deliberate
transformation.  Everything DaCe computes about the live SDFG (its argument list,
its free symbols, where its arrays are stored) is part of the state.
-/
import Mathlib.Data.Finset.Sort
import Mathlib.Data.String.Basic

namespace FrozenSignature

/-! ## Snapshots -/

/-- How an SDFG argument crosses the binding. -/
inductive FrozenArgKind
  | array
  | scalar
  | symbol
  | mpiComm
  deriving DecidableEq

/-- Prefix of the storages on the device. -/
def deviceStoragePrefix : String := "GPU_"

/-- One argument of the frozen signature.  `provenance` stands for the fields that are only
carried along (the record a component comes from, its allocation status). -/
structure FrozenArg (R : Type) where
  fortranName : String
  sdfgName : String
  kind : FrozenArgKind
  dtype : String
  rank : ℕ
  shape : List String
  intent : String
  isWritten : Bool
  storage : String
  deviceStorage : String
  provenance : R

/-- The snapshot of one entry subroutine.  `provenance` stands for the fields that are only
carried along (schema version, communicator dummy, record images that are never passed). -/
structure Signature (R : Type) where
  entry : String
  mangled : String
  args : List (FrozenArg R)
  freeSymbols : List String
  moduleSymbolOrigins : List (String × (String × String))
  symbolDtypes : List (String × String)
  provenance : R

/-- An SDFG as the snapshot sees it: the argument list (a dictionary from names to dtypes, in
order), the free symbols, the storage of each array, and the snapshot attached to it. -/
structure Sdfg (R : Type) where
  name : String
  arglist : List (String × String)
  arglist_nodup : (arglist.map Prod.fst).Nodup
  freeSymbols : Finset String
  arrays : List (String × String)
  attached : Option (Signature R)

variable {R : Type}

/-- Names of the live argument list, in its order. -/
def Sdfg.argNames (sdfg : Sdfg R) : List String := sdfg.arglist.map Prod.fst

/-- The dtype of a live argument. -/
def Sdfg.dtype? (sdfg : Sdfg R) (name : String) : Option String := sdfg.arglist.lookup name

/-- Names of the arguments of a snapshot, in its order. -/
def Signature.argNames (frozen : Signature R) : List String := frozen.args.map (·.sdfgName)

/-- Names that read a module variable. -/
def Signature.moduleNames (frozen : Signature R) : List String :=
  frozen.moduleSymbolOrigins.map Prod.fst

/-- `copyin`, `copyout` or `copy` for an argument, empty if it never leaves the host. -/
def FrozenArg.accDataClause (a : FrozenArg R) : String :=
  if a.kind ≠ .array ∨ a.deviceStorage = "" ∨ a.deviceStorage = a.storage then ""
  else
    let intent := a.intent.toLower
    if intent = "in" ∧ ¬ a.isWritten then "copyin"
    else if intent = "out" then "copyout"
    else "copy"

/-! ## The drift check -/

/-- Texts of `SignatureDriftError` raised by the check, with what they report. -/
inductive SignatureDrift
  /-- "signature drift on ..: expected args .., got .." -/
  | args (entry : String) (expected live : List String)
  /-- "signature drift on ..: arg .. dtype .. in snapshot but .. now" -/
  | dtype (entry arg snapshot live : String)
  /-- "signature drift on ..: expected free symbols .., got .." -/
  | symbols (entry : String) (expected live : List String)
  deriving DecidableEq

/-- `sorted` on names. -/
def sorted (names : List String) : List String := names.insertionSort (· ≤ ·)

/-- `sorted` on a set of names. -/
def sortedSet (names : Finset String) : List String := names.sort (· ≤ ·)

/-- The dtype check of one argument: symbols and arguments no longer passed are skipped. -/
def Signature.dtypeDrift (frozen : Signature R) (sdfg : Sdfg R) (a : FrozenArg R) :
    Option SignatureDrift :=
  if a.sdfgName ∈ frozen.freeSymbols then none
  else
    match sdfg.dtype? a.sdfgName with
    | none => none
    | some live => if live ≠ a.dtype then some (.dtype frozen.entry a.sdfgName a.dtype live)
        else none

/-- Live arguments that are not free symbols, `live_names`. -/
def Sdfg.dataNames (sdfg : Sdfg R) : List String :=
  sdfg.argNames.filter (· ∉ sdfg.freeSymbols)

/-- Arguments of the snapshot that are not free symbols, `snap_names`. -/
def Signature.dataNames (frozen : Signature R) : List String :=
  frozen.argNames.filter (· ∉ frozen.freeSymbols)

/-- `verify_against`: names as sorted lists, then the dtype of each argument, then the free
symbols. -/
def Signature.verifyAgainst (frozen : Signature R) (sdfg : Sdfg R) : Except SignatureDrift Unit :=
  if sorted sdfg.dataNames ≠ sorted frozen.dataNames then
    .error (.args frozen.entry frozen.dataNames sdfg.dataNames)
  else
    match frozen.args.findSome? (frozen.dtypeDrift sdfg) with
    | some drift => .error drift
    | none =>
      if sdfg.freeSymbols ≠ frozen.freeSymbols.toFinset then
        .error (.symbols frozen.entry (sortedSet frozen.freeSymbols.toFinset)
          (sortedSet sdfg.freeSymbols))
      else .ok ()

/-! ## The attached snapshot -/

/-- `symbol_dtypes_of`: a symbol that is not passed has no entry. -/
def Sdfg.symbolDtypesOf (sdfg : Sdfg R) (names : List String) : List (String × String) :=
  names.filterMap fun name => (sdfg.dtype? name).map fun dtype => (name, dtype)

/-- `get_frozen_signature`: the widths of the symbols are filled in when the snapshot lacks
them. -/
def Sdfg.getFrozenSignature (sdfg : Sdfg R) : Option (Signature R) :=
  sdfg.attached.map fun frozen =>
    if frozen.freeSymbols ≠ [] ∧ frozen.symbolDtypes = [] then
      { frozen with symbolDtypes := sdfg.symbolDtypesOf frozen.freeSymbols }
    else frozen

/-- `attach_to_sdfg`. -/
def Sdfg.attach (sdfg : Sdfg R) (frozen : Signature R) : Sdfg R :=
  { sdfg with attached := some frozen }

/-! ## `refreeze` -/

/-- What `refreeze` raises. -/
inductive RefreezeError
  /-- "SDFG .. carries no _frozen_signature" -/
  | noSignature (sdfg : String)
  /-- "optimization introduced free symbols .. the binding cannot derive values for" -/
  | introduced (entry : String) (symbols : List String)
  /-- "optimization removed args ..; only scalars, free symbols and module variables may shrink" -/
  | removed (entry : String) (args : List String)
  /-- the drift check of the new snapshot -/
  | drift (error : SignatureDrift)
  deriving DecidableEq

/-- `_MAY_SHRINK`: the kinds an optimization pass may delete. -/
def FrozenArgKind.mayShrink : FrozenArgKind → Bool
  | .scalar | .symbol => true
  | .array | .mpiComm => false

/-- Arguments that are part of the caller's interface, neither values nor module variables. -/
def Signature.isBuffer (frozen : Signature R) (a : FrozenArg R) : Bool :=
  !a.kind.mayShrink && decide (a.sdfgName ∉ frozen.moduleNames)

/-- `dropped_buffers`. -/
def Signature.droppedBuffers (frozen : Signature R) (sdfg : Sdfg R) : List String :=
  (frozen.args.filter fun a => frozen.isBuffer a && decide (a.sdfgName ∉ sdfg.argNames)).map
    (·.sdfgName)

/-- `_survives`: still in the argument list or among the free symbols. -/
def Sdfg.survives (sdfg : Sdfg R) (a : FrozenArg R) : Bool :=
  decide (a.sdfgName ∈ sdfg.argNames ∨ a.sdfgName ∈ sdfg.freeSymbols)

/-- `_relocate`: only a move into device memory is recorded. -/
def Sdfg.relocate (sdfg : Sdfg R) (a : FrozenArg R) : FrozenArg R :=
  let name := (sdfg.arrays.lookup a.sdfgName).getD ""
  { a with
    deviceStorage := if deviceStoragePrefix.toList.isPrefixOf name.toList then name else "" }

/-- The free symbols the live SDFG still has. -/
def Signature.keptSymbols (frozen : Signature R) (sdfg : Sdfg R) : List String :=
  frozen.freeSymbols.filter (· ∈ sdfg.freeSymbols)

/-- The new snapshot. -/
def Signature.shrunk (frozen : Signature R) (sdfg : Sdfg R) : Signature R :=
  { frozen with
    args := (frozen.args.filter sdfg.survives).map sdfg.relocate
    freeSymbols := frozen.keptSymbols sdfg
    symbolDtypes := sdfg.symbolDtypesOf (frozen.keptSymbols sdfg) }

/-- The checks of `refreeze`, in order, up to the new snapshot. -/
def Signature.resnapshot (frozen : Signature R) (sdfg : Sdfg R) :
    Except RefreezeError (Signature R) :=
  let added := sdfg.freeSymbols \ frozen.freeSymbols.toFinset
  if added ≠ ∅ then .error (.introduced frozen.entry (sortedSet added))
  else if frozen.droppedBuffers sdfg ≠ [] then
    .error (.removed frozen.entry (frozen.droppedBuffers sdfg))
  else
    match (frozen.shrunk sdfg).verifyAgainst sdfg with
    | .error drift => .error (.drift drift)
    | .ok () => .ok (frozen.shrunk sdfg)

/-- The part of `refreeze` after the live SDFG has been read. -/
def Sdfg.refreezeLive (sdfg : Sdfg R) :
    ExceptT RefreezeError (StateM (Sdfg R)) (Signature R) :=
  match sdfg.getFrozenSignature with
  | none => throw (.noSignature sdfg.name)
  | some frozen =>
    match frozen.resnapshot sdfg with
    | .error e => throw e
    | .ok new => do
      set (sdfg.attach new)
      return new

/-- `refreeze`: an exception leaves behind what was stored before it. -/
def refreeze : ExceptT RefreezeError (StateM (Sdfg R)) (Signature R) := do
  let sdfg ← get
  sdfg.refreezeLive

end FrozenSignature
