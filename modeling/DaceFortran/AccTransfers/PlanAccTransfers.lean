/-
# The transfer plan of a host SDFG

`plan_acc_transfers` crosses the residency sidecar of a routine (where the caller
keeps each dummy) with the SDFG's data descriptors (where each container is stored)
and returns the dummies to update on either side of the call.  Containers are found
by name, a dummy's own or one that starts with it and an underscore.
-/
import DaceFortran.FrozenSignature.FrozenSignature

open List

namespace AccTransfers

open FrozenSignature (sorted)

/-! ## The SDFG and the sidecar -/

/-- Where a buffer lives. -/
inductive Residency
  | device
  | host
  deriving DecidableEq

/-- A data container of the SDFG. -/
structure Container where
  name : String
  transient : Bool
  isScalar : Bool
  storage : String
  deriving DecidableEq

/-- The SDFG as the plan sees it: its containers (a dictionary), its symbols and free symbols, and
`read_and_write_sets`, which name containers. -/
structure Sdfg where
  arrays : List Container
  arrays_nodup : (arrays.map (·.name)).Nodup
  symbols : List String
  readSet : List String
  writeSet : List String
  written_containers : ∀ n ∈ writeSet, n ∈ arrays.map (·.name)
  read_containers : ∀ n ∈ readSet, n ∈ arrays.map (·.name)

/-- The sidecar `<routine>.acc_residency.json`. -/
structure AccResidency where
  routine : String
  args : List (String × Residency)
  unclassified : List String
  refs : List (String × List String)

/-- At least one argument was classified device-resident. -/
def AccResidency.hasDeviceArgs (residency : AccResidency) : Bool :=
  residency.args.any fun p => decide (p.2 = .device)

/-- The storages on the device. -/
def gpuStorage : List String := ["GPU_Global", "GPU_Shared"]

/-- The side a container is stored on. -/
def Container.side (c : Container) : Residency :=
  if c.storage ∈ gpuStorage then .device else .host

/-! ## Containers of a dummy -/

/-- `n.startswith(p)`. -/
def startsWith (n p : String) : Bool := p.toList.isPrefixOf n.toList

/-- A container is taken for a dummy's by its name. -/
def Container.namedFor (c : Container) (arg : String) : Bool :=
  decide (c.name = arg) || startsWith c.name (arg ++ "_")

/-- The non-transient containers found for a dummy. -/
def Sdfg.found (sdfg : Sdfg) (arg : String) : List Container :=
  sdfg.arrays.filter fun c => !c.transient && c.namedFor arg

/-- `sdfg_containers_for_arg`. -/
def Sdfg.containersForArg (sdfg : Sdfg) (arg : String) : List String :=
  sorted ((sdfg.found arg).map (·.name))

/-- `is_scalar_arg`: a symbol without containers, or only scalars. -/
def Sdfg.isScalarArg (sdfg : Sdfg) (arg : String) : Bool :=
  if sdfg.found arg = [] then decide (arg ∈ sdfg.symbols)
  else (sdfg.found arg).all (·.isScalar)

/-- Errors of the crossing, with what they report. -/
inductive AccResidencyError
  /-- "cannot be applied -- not present in the sidecar ..; left unclassified .." -/
  | cannotApply (routine : String) (missing stuck : List String)
  /-- "fails the mappability invariant": arguments without a flat one, and unresolved entities -/
  | unmappable (routine : String) (problems : List (String × Option String))
  /-- "has no SDFG data container and is not an SDFG symbol" -/
  | noContainer (arg : String)
  /-- "maps to SDFG containers with mixed host/GPU storage" -/
  | mixed (arg : String) (containers : List String)
  /-- "no transfer is defined for" -/
  | noTransfer (routine : String) (bad : List String)
  deriving DecidableEq

/-- `_arg_storage`. -/
def Sdfg.argStorage (sdfg : Sdfg) (arg : String) : Except AccResidencyError Residency :=
  match sdfg.found arg with
  | [] => .error (.noContainer arg)
  | c :: rest =>
    if rest.all fun c' => decide (c'.side = c.side) then .ok c.side
    else .error (.mixed arg (sdfg.containersForArg arg))

/-- `_written_args`: one of the containers is in the write set. -/
def Sdfg.writtenArg (sdfg : Sdfg) (arg : String) : Bool :=
  (sdfg.containersForArg arg).any fun n => decide (n ∈ sdfg.writeSet)

/-! ## The mappability check -/

/-- Drops parenthesised groups: what is kept so far is in reverse, and a closing parenthesis takes
everything back to the last opening one with it. -/
def dropGroups : List Char → List Char → List Char
  | kept, [] => kept.reverse
  | kept, c :: rest =>
    if c = ')' ∧ '(' ∈ kept then dropGroups (kept.dropWhile (· ≠ '(')).tail rest
    else dropGroups (c :: kept) rest

/-- `_ref_to_flat_name`. -/
def refToFlatName (ref : String) : String :=
  let text := dropGroups [] (ref.toList.filter fun c => !c.isWhitespace)
  String.ofList (text.map fun c => if c = '%' then '_' else c)

/-- The entities the sidecar names for a dummy, the dummy itself by default. -/
def AccResidency.refsOf (residency : AccResidency) (arg : String) : List String :=
  match residency.refs.lookup arg with
  | some (r :: rs) => r :: rs
  | _ => [arg]

/-- No container carries the entity's flat name, nor starts with it. -/
def Sdfg.unresolved (sdfg : Sdfg) (arg ref : String) : Bool :=
  (sdfg.found arg).all fun c =>
    decide (c.name ≠ refToFlatName ref) && !startsWith c.name (refToFlatName ref ++ "_")

/-- The problems of one dummy. -/
def mappabilityProblems (sdfg : Sdfg) (residency : AccResidency) (arg : String) :
    List (String × Option String) :=
  if residency.args.lookup arg ≠ some .device then []
  else if sdfg.isScalarArg arg then []
  else if sdfg.found arg = [] then [(arg, none)]
  else ((residency.refsOf arg).filter (sdfg.unresolved arg)).map fun ref => (arg, some ref)

/-- `validate_acc_mappability`. -/
def validateAccMappability (sdfg : Sdfg) (residency : AccResidency) (argOrder : List String) :
    Except AccResidencyError Unit :=
  match argOrder.flatMap (mappabilityProblems sdfg residency) with
  | [] => .ok ()
  | p :: ps => .error (.unmappable residency.routine (p :: ps))

/-! ## The plan -/

/-- The slots `plan_acc_transfers` fills. -/
structure AccTransferPlan where
  updateHost : List String
  updateDevice : List String
  useDevice : List String
  storage : List (String × Residency)
  deriving DecidableEq

/-- The dummies that cross as buffers. -/
def Sdfg.buffers (sdfg : Sdfg) (argOrder : List String) : List String :=
  argOrder.filter fun a => !sdfg.isScalarArg a

/-- The storage of each dummy, in order, the first undecidable one raising. -/
def Sdfg.argStorages (sdfg : Sdfg) :
    List String → Except AccResidencyError (List (String × Residency))
  | [] => .ok []
  | a :: rest =>
    match sdfg.argStorage a with
    | .error e => .error e
    | .ok side =>
      match sdfg.argStorages rest with
      | .error e => .error e
      | .ok sides => .ok ((a, side) :: sides)

/-- The slots filled by the last loop, and the dummies it cannot place. -/
structure Slots where
  updateHost : List String
  updateDevice : List String
  useDevice : List String
  bad : List String

/-- The last loop, over the buffers with their storage. -/
def fillSlots (sdfg : Sdfg) (residency : AccResidency) : List (String × Residency) → Slots
  | [] => ⟨[], [], [], []⟩
  | (arg, stored) :: rest =>
    let slots := fillSlots sdfg residency rest
    match (residency.args.lookup arg).getD .host, stored with
    | .device, .host =>
      { slots with
        updateHost := arg :: slots.updateHost
        updateDevice :=
          if sdfg.writtenArg arg then arg :: slots.updateDevice else slots.updateDevice }
    | .device, .device => { slots with useDevice := arg :: slots.useDevice }
    | .host, .device => { slots with bad := arg :: slots.bad }
    | .host, .host => slots

/-- Buffers the sidecar does not mention. -/
def missingArgs (residency : AccResidency) (buffers : List String) : List String :=
  buffers.filter fun a =>
    (residency.args.lookup a).isNone && decide (a ∉ residency.unclassified)

/-- Buffers left unclassified although the routine has device-resident arguments. -/
def stuckArgs (residency : AccResidency) (buffers : List String) : List String :=
  if residency.hasDeviceArgs then buffers.filter (· ∈ residency.unclassified) else []

/-- `plan_acc_transfers`. -/
def planAccTransfers (sdfg : Sdfg) (residency : AccResidency) (argOrder : List String) :
    Except AccResidencyError AccTransferPlan :=
  let buffers := sdfg.buffers argOrder
  let missing := missingArgs residency buffers
  let stuck := stuckArgs residency buffers
  if missing ≠ [] ∨ stuck ≠ [] then .error (.cannotApply residency.routine missing stuck)
  else
    match validateAccMappability sdfg residency argOrder with
    | .error e => .error e
    | .ok () =>
      match sdfg.argStorages buffers with
      | .error e => .error e
      | .ok storage =>
        let slots := fillSlots sdfg residency storage
        if slots.bad ≠ [] then .error (.noTransfer residency.routine slots.bad)
        else .ok ⟨slots.updateHost, slots.updateDevice, slots.useDevice, storage⟩

example : refToFlatName "p_diag%vt(:, :, idx(jb))" = "p_diag_vt" := by decide

-- the equations, made once for the proofs
attribute [local simp] fillSlots Sdfg.argStorages Sdfg.argStorage

end AccTransfers

/-
# Coherence of the transfer plan

The wrapper as two copies of every buffer: the host copies brought up to date before
the call, the SDFG's own run, the device copies brought up to date after it.  A plan
that is returned keeps the two sides together; what can go wrong is the attribution
of a container by its name, and a dummy that crosses by value.
-/

namespace AccTransfers

/-! ## Which dummy a name comes from -/

/-- The dummies of the routine, and the dummy each SDFG name was flattened from: a container named
after the dummy, or the symbol a dummy without containers became. -/
structure Interface (sdfg : Sdfg) where
  argOrder : List String
  owner : String → Option String
  owner_mem : ∀ n d, owner n = some d → d ∈ argOrder
  owner_named : ∀ n d, owner n = some d →
    (∃ c ∈ sdfg.arrays, c.name = n ∧ c.transient = false ∧ c.namedFor d = true) ∨
      (n ∉ sdfg.arrays.map (·.name) ∧
        ∀ c ∈ sdfg.arrays, c.transient = false → owner c.name ≠ some d)

/-- The dummy is device-resident. -/
def AccResidency.onDevice (residency : AccResidency) (d : String) : Prop :=
  residency.args.lookup d = some .device

/-- A container or a symbol the SDFG may read. -/
def Sdfg.mayRead (sdfg : Sdfg) (n : String) : Prop := n ∈ sdfg.readSet ∨ n ∈ sdfg.symbols

/-- A container or a symbol the SDFG has on the host. -/
def Sdfg.onHost (sdfg : Sdfg) (n : String) : Prop :=
  ∀ c ∈ sdfg.arrays, c.name = n → c.side = .host

/-! ## The wrapper -/

/-- The two copies of each buffer. -/
structure Copies where
  host : String → ℤ
  device : String → ℤ

/-- `UPDATE HOST` of some dummies. -/
def Copies.updateHost (owner : String → Option String) (names : List String) (m : Copies) :
    Copies :=
  { m with host := fun n => if ∃ d ∈ names, owner n = some d then m.device n else m.host n }

/-- `UPDATE DEVICE` of some dummies. -/
def Copies.updateDevice (owner : String → Option String) (names : List String) (m : Copies) :
    Copies :=
  { m with device := fun n => if ∃ d ∈ names, owner n = some d then m.host n else m.device n }

/-- A run of the SDFG: it stores only to what its write set names, on the side it has it. -/
structure Sdfg.Call (sdfg : Sdfg) (before after : Copies) : Prop where
  host_frame : ∀ n, n ∉ sdfg.writeSet → after.host n = before.host n
  device_frame : ∀ n, n ∉ sdfg.writeSet → after.device n = before.device n
  device_of_onHost : ∀ n, sdfg.onHost n → after.device n = before.device n

/-- The plan is coherent. -/
structure Coherent {sdfg : Sdfg} (iface : Interface sdfg) (residency : AccResidency)
    (plan : AccTransferPlan) : Prop where
  /-- what a device-resident dummy gives the SDFG to read on the host is the device's value -/
  fresh : ∀ m : Copies, ∀ n d, iface.owner n = some d → residency.onDevice d → sdfg.onHost n →
    sdfg.mayRead n → (m.updateHost iface.owner plan.updateHost).host n = m.device n
  /-- what the SDFG writes of a device-resident dummy on the host reaches the device -/
  written_back : ∀ m after : Copies,
    sdfg.Call (m.updateHost iface.owner plan.updateHost) after →
    ∀ n d, iface.owner n = some d → residency.onDevice d → sdfg.onHost n → n ∈ sdfg.writeSet →
      (after.updateDevice iface.owner plan.updateDevice).device n = after.host n
  /-- the device copy of what the SDFG does not write is the one from before the call -/
  not_stale : ∀ m after : Copies,
    sdfg.Call (m.updateHost iface.owner plan.updateHost) after →
    ∀ n, n ∉ sdfg.writeSet →
      (after.updateDevice iface.owner plan.updateDevice).device n = m.device n
  /-- a container is attributed to the dummy it was flattened from and to no other -/
  attributed : ∀ c ∈ sdfg.arrays, c.transient = false → ∀ d ∈ iface.argOrder,
    c.name ∈ sdfg.containersForArg d ↔ iface.owner c.name = some d

/-- No container is a dummy's by its name that was flattened from another dummy, or from none. -/
def NamesUnambiguous {sdfg : Sdfg} (iface : Interface sdfg) : Prop :=
  ∀ c ∈ sdfg.arrays, c.transient = false → ∀ d ∈ iface.argOrder,
    c.namedFor d = true → iface.owner c.name = some d

/-- No device-resident dummy is read or written on the host by value. -/
def NoDeviceValue {sdfg : Sdfg} (iface : Interface sdfg) (residency : AccResidency) : Prop :=
  ∀ n d, iface.owner n = some d → residency.onDevice d → sdfg.isScalarArg d = true →
    sdfg.onHost n → ¬ sdfg.mayRead n ∧ n ∉ sdfg.writeSet

/-! ## Containers found by name -/

theorem mem_sorted {l : List String} {n : String} : n ∈ FrozenSignature.sorted l ↔ n ∈ l :=
  mem_insertionSort _

variable {sdfg : Sdfg}

variable {arg : String} {c : Container} {sides : List (String × Residency)}

theorem Sdfg.mem_found :
    c ∈ sdfg.found arg ↔ c ∈ sdfg.arrays ∧ c.transient = false ∧ c.namedFor arg = true := by
  simp [Sdfg.found, mem_filter]

theorem Sdfg.eq_of_name {c c' : Container} (hc : c ∈ sdfg.arrays)
    (hc' : c' ∈ sdfg.arrays) (h : c.name = c'.name) : c = c' :=
  inj_on_of_nodup_map sdfg.arrays_nodup hc hc' h

theorem Sdfg.mem_containersForArg
    (hc : c ∈ sdfg.arrays) :
    c.name ∈ sdfg.containersForArg arg ↔ c.transient = false ∧ c.namedFor arg = true := by
  unfold Sdfg.containersForArg
  rw [mem_sorted, mem_map]
  constructor
  · rintro ⟨c', hf, hn⟩
    obtain ⟨hc', ht, hm⟩ := Sdfg.mem_found.mp hf
    rw [← Sdfg.eq_of_name hc' hc hn]
    exact ⟨ht, hm⟩
  · rintro ⟨ht, hm⟩
    exact ⟨c, Sdfg.mem_found.mpr ⟨hc, ht, hm⟩, rfl⟩

theorem Sdfg.writtenArg_eq_true {arg n : String}
    (hn : n ∈ sdfg.containersForArg arg) (hw : n ∈ sdfg.writeSet) : sdfg.writtenArg arg = true :=
  any_eq_true.mpr ⟨n, hn, by simpa using hw⟩

/-- All the containers of a dummy are on the side its storage is. -/
theorem Sdfg.side_of_argStorage {side : Residency}
    (h : sdfg.argStorage arg = .ok side) (hc : c ∈ sdfg.found arg) :
    c.side = side := by
  unfold Sdfg.argStorage at h
  cases hf : sdfg.found arg with
  | nil => simp [hf] at hc
  | cons c₀ rest =>
    rw [hf] at h hc
    by_cases ha : (rest.all fun c' => decide (c'.side = c₀.side)) = true
    · simp only [ha, if_true, Except.ok.injEq] at h
      rcases mem_cons.mp hc with rfl | hr
      · exact h
      · rw [← h]
        simpa using all_eq_true.mp ha c hr
    · simp [ha] at h

/-! ## The slots -/

theorem Sdfg.argStorages_cons {b : String} {rest : List String}
    (h : sdfg.argStorages (b :: rest) = .ok sides) :
    ∃ sb sr, sdfg.argStorage b = .ok sb ∧ sdfg.argStorages rest = .ok sr ∧
      sides = (b, sb) :: sr := by
  unfold Sdfg.argStorages at h
  cases hb : sdfg.argStorage b with
  | error e => simp [hb] at h
  | ok sb =>
    cases hr : sdfg.argStorages rest with
    | error e => simp [hb, hr] at h
    | ok sr =>
      simp only [hb, hr, Except.ok.injEq] at h
      exact ⟨sb, sr, rfl, rfl, h.symm⟩

theorem Sdfg.mem_argStorages {names : List String}
    (h : sdfg.argStorages names = .ok sides) (a : String)
    (side : Residency) :
    (a, side) ∈ sides ↔ a ∈ names ∧ sdfg.argStorage a = .ok side := by
  induction names generalizing sides with
  | nil =>
    simp only [Sdfg.argStorages, Except.ok.injEq] at h
    simp [← h]
  | cons b rest ih =>
    obtain ⟨sb, sr, hb, hr, rfl⟩ := Sdfg.argStorages_cons h
    rw [mem_cons, mem_cons, ih hr, Prod.mk.injEq]
    constructor
    · rintro (⟨rfl, rfl⟩ | ⟨hm, hs⟩)
      · exact ⟨.inl rfl, hb⟩
      · exact ⟨.inr hm, hs⟩
    · rintro ⟨rfl | hm, hs⟩
      · rw [hb] at hs
        exact .inl ⟨rfl, by simpa using hs.symm⟩
      · exact .inr ⟨hm, hs⟩

/-- The side the sidecar gives a dummy is the device exactly when it says so. -/
theorem AccResidency.getD_eq_device (residency : AccResidency) (a : String) :
    (residency.args.lookup a).getD .host = .device ↔ residency.onDevice a := by
  unfold AccResidency.onDevice
  cases residency.args.lookup a <;> simp

theorem mem_updateHost_cons (sdfg : Sdfg) (residency : AccResidency) (b : String)
    (stored : Residency) (rest : List (String × Residency)) (a : String) :
    a ∈ (fillSlots sdfg residency ((b, stored) :: rest)).updateHost ↔
      (a = b ∧ stored = .host ∧ residency.onDevice b) ∨
        a ∈ (fillSlots sdfg residency rest).updateHost := by
  rw [← residency.getD_eq_device b]
  show a ∈ Slots.updateHost (match (residency.args.lookup b).getD .host, stored with
    | .device, .host => _ | .device, .device => _ | .host, .device => _ | .host, .host => _) ↔ _
  cases (residency.args.lookup b).getD .host <;> cases stored <;> simp

/-- Of the buffers updated on the host those that are written are updated on the device. -/
theorem updateDevice_eq (sdfg : Sdfg) (residency : AccResidency)
    (sides : List (String × Residency)) :
    (fillSlots sdfg residency sides).updateDevice =
      (fillSlots sdfg residency sides).updateHost.filter sdfg.writtenArg := by
  induction sides with
  | nil => rfl
  | cons p rest ih =>
    obtain ⟨b, stored⟩ := p
    unfold fillSlots
    cases (residency.args.lookup b).getD .host <;> cases stored <;> simp [ih, filter_cons]

theorem mem_updateHost (sdfg : Sdfg) (residency : AccResidency)
    (sides : List (String × Residency)) (a : String) :
    a ∈ (fillSlots sdfg residency sides).updateHost ↔
      (a, Residency.host) ∈ sides ∧ residency.onDevice a := by
  induction sides with
  | nil => simp [fillSlots]
  | cons p rest ih =>
    rw [mem_updateHost_cons, ih, mem_cons, Prod.mk.injEq]
    constructor
    · rintro (⟨rfl, hs, hd⟩ | ⟨hm, hd⟩)
      · exact ⟨.inl ⟨rfl, hs.symm⟩, hd⟩
      · exact ⟨.inr hm, hd⟩
    · rintro ⟨⟨rfl, hs⟩ | hm, hd⟩
      · exact .inl ⟨rfl, hs.symm, hd⟩
      · exact .inr ⟨hm, hd⟩

theorem mem_updateDevice (sdfg : Sdfg) (residency : AccResidency)
    (sides : List (String × Residency)) (a : String) :
    a ∈ (fillSlots sdfg residency sides).updateDevice ↔
      ((a, Residency.host) ∈ sides ∧ residency.onDevice a) ∧ sdfg.writtenArg a = true := by
  rw [updateDevice_eq, mem_filter, mem_updateHost]

/-- A dummy the plan updates on the host: a device-resident buffer stored on the host. -/
def Updated (sdfg : Sdfg) (residency : AccResidency) (argOrder : List String) (d : String) :
    Prop :=
  d ∈ argOrder ∧ sdfg.isScalarArg d = false ∧ sdfg.argStorage d = .ok .host ∧
    residency.onDevice d

/-- What a returned plan says, and what it took to return it. -/
structure Planned (sdfg : Sdfg) (residency : AccResidency) (argOrder : List String)
    (plan : AccTransferPlan) : Prop where
  storage_known : ∀ d ∈ argOrder, sdfg.isScalarArg d = false → ∃ side, sdfg.argStorage d = .ok side
  mem_host : ∀ d, d ∈ plan.updateHost ↔ Updated sdfg residency argOrder d
  mem_device : ∀ d, d ∈ plan.updateDevice ↔
    Updated sdfg residency argOrder d ∧ sdfg.writtenArg d = true

theorem Sdfg.exists_argStorage {names : List String}
    (h : sdfg.argStorages names = .ok sides) :
    ∀ d ∈ names, ∃ side, sdfg.argStorage d = .ok side := by
  induction names generalizing sides with
  | nil => simp
  | cons b rest ih =>
    obtain ⟨sb, sr, hb, hr, -⟩ := Sdfg.argStorages_cons h
    intro d hd
    rcases mem_cons.mp hd with rfl | hd
    · exact ⟨sb, hb⟩
    · exact ih hr d hd

theorem planned_of_ok {residency : AccResidency} {argOrder : List String}
    {plan : AccTransferPlan} (h : planAccTransfers sdfg residency argOrder = .ok plan) :
    Planned sdfg residency argOrder plan := by
  unfold planAccTransfers at h
  simp only at h
  split at h
  · cases h
  · cases hv : validateAccMappability sdfg residency argOrder with
    | error e => simp [hv] at h
    | ok u =>
      cases hs : sdfg.argStorages (sdfg.buffers argOrder) with
      | error e => simp [hv, hs] at h
      | ok sides =>
        simp only [hv, hs] at h
        split at h
        · cases h
        · obtain rfl := Except.ok.inj h
          have hb : ∀ d, d ∈ sdfg.buffers argOrder ↔
              d ∈ argOrder ∧ sdfg.isScalarArg d = false := by
            intro d
            simp [Sdfg.buffers, mem_filter]
          refine ⟨?_, ?_, ?_⟩
          · intro d hd hsc
            exact Sdfg.exists_argStorage hs d ((hb d).mpr ⟨hd, hsc⟩)
          · intro d
            show d ∈ (fillSlots sdfg residency sides).updateHost ↔ _
            rw [mem_updateHost, Sdfg.mem_argStorages hs, hb]
            unfold Updated
            tauto
          · intro d
            show d ∈ (fillSlots sdfg residency sides).updateDevice ↔ _
            rw [mem_updateDevice, Sdfg.mem_argStorages hs, hb]
            unfold Updated
            tauto

/-! ## What the plan keeps together -/

section
variable {sdfg : Sdfg} {iface : Interface sdfg} {residency : AccResidency}
  {plan : AccTransferPlan}

variable {n d : String}

/-- With unambiguous names, a device-resident name that is on the host and is not passed by value
belongs to a dummy the plan updates. -/
theorem updated_of_owner (hp : Planned sdfg residency iface.argOrder plan)
    (hu : NamesUnambiguous iface) (hv : NoDeviceValue iface residency)
    (ho : iface.owner n = some d) (hd : residency.onDevice d) (hh : sdfg.onHost n)
    (ht : sdfg.mayRead n ∨ n ∈ sdfg.writeSet) :
    Updated sdfg residency iface.argOrder d := by
  have hmem := iface.owner_mem n d ho
  have hns : sdfg.isScalarArg d = false := by
    by_contra hs
    have := hv n d ho hd (by simpa using hs) hh
    tauto
  obtain ⟨side, hside⟩ := hp.storage_known d hmem hns
  rcases iface.owner_named n d ho with ⟨c, hc, hn, htr, hnm⟩ | ⟨hn, hnone⟩
  · have hs := Sdfg.side_of_argStorage hside (Sdfg.mem_found.mpr ⟨hc, htr, hnm⟩)
    rw [hh c hc hn] at hs
    exact ⟨hmem, hns, by rw [hside, ← hs], hd⟩
  · -- a dummy without containers has no storage
    exfalso
    have hf : sdfg.found d = [] := by
      rw [eq_nil_iff_forall_not_mem]
      intro c hc
      obtain ⟨hc, htr, hnm⟩ := Sdfg.mem_found.mp hc
      exact hnone c hc htr (hu c hc htr d hmem hnm)
    simp [Sdfg.argStorage, hf] at hside

variable {m : Copies}

theorem host_updateHost (ho : iface.owner n = some d)
    (hd : d ∈ plan.updateHost) :
    (m.updateHost iface.owner plan.updateHost).host n = m.device n :=
  if_pos ⟨d, hd, ho⟩

theorem host_updateHost_of_notMem (ho : iface.owner n = some d)
    (hd : d ∉ plan.updateHost) :
    (m.updateHost iface.owner plan.updateHost).host n = m.host n := by
  apply if_neg
  rintro ⟨d', hd', ho'⟩
  rw [ho, Option.some.injEq] at ho'
  exact hd (ho' ▸ hd')

theorem device_updateDevice_of_notMem (ho : iface.owner n = some d)
    (hd : d ∉ plan.updateDevice) :
    (m.updateDevice iface.owner plan.updateDevice).device n = m.device n := by
  apply if_neg
  rintro ⟨d', hd', ho'⟩
  rw [ho, Option.some.injEq] at ho'
  exact hd (ho' ▸ hd')

/-- The name of an owned container is found for its owner. -/
theorem mem_containersForArg_of_owner (ho : iface.owner n = some d)
    (hw : n ∈ sdfg.writeSet) : n ∈ sdfg.containersForArg d := by
  rcases iface.owner_named n d ho with ⟨c, hc, rfl, htr, hnm⟩ | ⟨hn, -⟩
  · exact (Sdfg.mem_containersForArg hc).mpr ⟨htr, hnm⟩
  · exact absurd (sdfg.written_containers n hw) hn

/-- No returned plan overwrites what the SDFG does not write: a dummy goes back to the device only
after it came from there. -/
theorem not_stale_of_planned (hp : Planned sdfg residency iface.argOrder plan) (m after : Copies)
    (hcall : sdfg.Call (m.updateHost iface.owner plan.updateHost) after) (n : String)
    (hn : n ∉ sdfg.writeSet) :
    (after.updateDevice iface.owner plan.updateDevice).device n = m.device n := by
  by_cases hd : ∃ d ∈ plan.updateDevice, iface.owner n = some d
  · obtain ⟨d, hd, ho⟩ := hd
    have hh : d ∈ plan.updateHost := (hp.mem_host d).mpr ((hp.mem_device d).mp hd).1
    calc (after.updateDevice iface.owner plan.updateDevice).device n
        = after.host n := if_pos ⟨d, hd, ho⟩
      _ = (m.updateHost iface.owner plan.updateHost).host n := hcall.host_frame n hn
      _ = m.device n := host_updateHost ho hh
  · calc (after.updateDevice iface.owner plan.updateDevice).device n
        = after.device n := if_neg hd
      _ = m.device n := hcall.device_frame n hn

/-- The attribution is right exactly when names are unambiguous. -/
theorem attributed_iff :
    (∀ c ∈ sdfg.arrays, c.transient = false → ∀ d ∈ iface.argOrder,
      (c.name ∈ sdfg.containersForArg d ↔ iface.owner c.name = some d)) ↔
      NamesUnambiguous iface := by
  constructor
  · intro h c hc htr d hd hnm
    exact (h c hc htr d hd).mp ((Sdfg.mem_containersForArg hc).mpr ⟨htr, hnm⟩)
  · intro h c hc htr d hd
    constructor
    · intro hm
      exact h c hc htr d hd ((Sdfg.mem_containersForArg hc).mp hm).2
    · intro ho
      rcases iface.owner_named c.name d ho with ⟨c', hc', hn, htr', hnm⟩ | ⟨hn, -⟩
      · rw [Sdfg.eq_of_name hc' hc hn] at hnm
        exact (Sdfg.mem_containersForArg hc).mpr ⟨htr, hnm⟩
      · exact absurd (mem_map_of_mem hc) hn

/-- A dummy passed by value is never updated, and a stale value shows. -/
theorem noDeviceValue_of_coherent (hp : Planned sdfg residency iface.argOrder plan)
    (h : Coherent iface residency plan) : NoDeviceValue iface residency := by
  intro n d ho hd hs hh
  have hnu : d ∉ plan.updateHost := by
    intro hm
    have := ((hp.mem_host d).mp hm).2.1
    simp [hs] at this
  have hnd : d ∉ plan.updateDevice := by
    intro hm
    exact hnu ((hp.mem_host d).mpr ((hp.mem_device d).mp hm).1)
  let m : Copies := ⟨fun _ => 0, fun _ => 1⟩
  constructor
  · intro hr
    have hf := h.fresh m n d ho hd hh hr
    rw [host_updateHost_of_notMem ho hnu] at hf
    exact absurd hf (show ¬ (0 : ℤ) = 1 by decide)
  · intro hw
    -- the run that stores nothing
    have hcall : sdfg.Call (m.updateHost iface.owner plan.updateHost)
        (m.updateHost iface.owner plan.updateHost) :=
          ⟨fun _ _ => rfl, fun _ _ => rfl, fun _ _ => rfl⟩
    have hb := h.written_back m _ hcall n d ho hd hh hw
    rw [host_updateHost_of_notMem ho hnu, device_updateDevice_of_notMem ho hnd] at hb
    exact absurd hb (show ¬ (1 : ℤ) = 0 by decide)

end

/-- **When the plan is coherent**: of every plan that is returned, exactly when no container is
taken for a dummy's it was not flattened from, and no device-resident dummy crosses by value. -/
theorem planAccTransfers_coherent_iff (sdfg : Sdfg) (iface : Interface sdfg)
    (residency : AccResidency) :
    match planAccTransfers sdfg residency iface.argOrder with
    | .error _ => True
    | .ok plan => Coherent iface residency plan ↔
        NamesUnambiguous iface ∧ NoDeviceValue iface residency := by
  cases hplan : planAccTransfers sdfg residency iface.argOrder with
  | error e => trivial
  | ok plan =>
    have hp := planned_of_ok hplan
    constructor
    · intro h
      exact ⟨attributed_iff.mp h.attributed, noDeviceValue_of_coherent hp h⟩
    · rintro ⟨hu, hv⟩
      refine ⟨?_, ?_, not_stale_of_planned hp, attributed_iff.mpr hu⟩
      · intro m n d ho hd hh hr
        exact host_updateHost ho
          ((hp.mem_host d).mpr (updated_of_owner hp hu hv ho hd hh (.inl hr)))
      · intro m after _ n d ho hd hh hw
        have hup := updated_of_owner hp hu hv ho hd hh (.inr hw)
        have hwr := Sdfg.writtenArg_eq_true (mem_containersForArg_of_owner ho hw) hw
        exact if_pos ⟨d, (hp.mem_device d).mpr ⟨hup, hwr⟩, ho⟩

/-! ## One memory -/

section
variable {iface : Interface sdfg} {residency : AccResidency} {plan : AccTransferPlan}
    {m m' : Copies} {n d : String}

/-- The name comes from a device-resident dummy. -/
def Interface.OnDevice (iface : Interface sdfg) (residency : AccResidency) (n : String) : Prop :=
  ∃ d, iface.owner n = some d ∧ residency.onDevice d

open Classical in
/-- What the SDFG sees of a name: the copy on the side it has it. -/
noncomputable def Sdfg.view (sdfg : Sdfg) (m : Copies) (n : String) : ℤ :=
  if sdfg.onHost n then m.host n else m.device n

open Classical in
/-- The value of a name in the program: that on the device if it is device-resident. -/
noncomputable def Interface.value (iface : Interface sdfg) (residency : AccResidency) (m : Copies)
    (n : String) : ℤ :=
  if iface.OnDevice residency n then m.device n else sdfg.view m n

/-- What a run of the SDFG computes of the values it is given; only those it may read matter. -/
structure Kernel (sdfg : Sdfg) where
  compute : (String → ℤ) → String → ℤ
  reads : ∀ v v', (∀ n, sdfg.mayRead n → v n = v' n) →
    ∀ n ∈ sdfg.writeSet, compute v n = compute v' n

/-- The SDFG between the updates of the wrapper. -/
def Wrapped (iface : Interface sdfg) (plan : AccTransferPlan) (kernel : Kernel sdfg)
    (m m' : Copies) : Prop :=
  ∃ after, sdfg.Call (m.updateHost iface.owner plan.updateHost) after ∧
    (∀ n ∈ sdfg.writeSet, sdfg.view after n =
      kernel.compute (sdfg.view (m.updateHost iface.owner plan.updateHost)) n) ∧
    m' = after.updateDevice iface.owner plan.updateDevice

/-- What happens in a program: the routine is called, or the values become others. -/
inductive Event (sdfg : Sdfg)
  | call (kernel : Kernel sdfg)
  | other (f : (String → ℤ) → String → ℤ)

open Classical in
/-- An event in a program with one memory. -/
noncomputable def Event.plain : Event sdfg → (String → ℤ) → String → ℤ
  | .call kernel, v => fun n => if n ∈ sdfg.writeSet then kernel.compute v n else v n
  | .other f, v => f v

/-- The events on the two copies: a call goes through the wrapper, and outside of it the copies that
do not hold the values become anything. -/
inductive Execution (iface : Interface sdfg) (residency : AccResidency) (plan : AccTransferPlan) :
    List (Event sdfg) → Copies → Copies → Prop
  | nil (m : Copies) : Execution iface residency plan [] m m
  | call {kernel : Kernel sdfg} {events : List (Event sdfg)} {m m₁ m₂ : Copies}
      (h : Wrapped iface plan kernel m m₁)
      (hrest : Execution iface residency plan events m₁ m₂) :
      Execution iface residency plan (.call kernel :: events) m m₂
  | other {f : (String → ℤ) → String → ℤ} {events : List (Event sdfg)} {m m₁ m₂ : Copies}
      (h : iface.value residency m₁ = f (iface.value residency m))
      (hrest : Execution iface residency plan events m₁ m₂) :
      Execution iface residency plan (.other f :: events) m m₂

/-- A dummy updated is device-resident, and its containers are on the host. -/
theorem onHost_of_updated (hd : Updated sdfg residency iface.argOrder d)
    (ho : iface.owner n = some d)
    (hn : n ∈ sdfg.arrays.map (·.name)) : sdfg.onHost n := by
  rcases iface.owner_named n d ho with ⟨c, hc, rfl, htr, hnm⟩ | ⟨hnot, -⟩
  · intro c' hc' hname
    rw [Sdfg.eq_of_name hc' hc hname]
    exact Sdfg.side_of_argStorage hd.2.2.1 (Sdfg.mem_found.mpr ⟨hc, htr, hnm⟩)
  · exact absurd hn hnot

/-- Before the run of the SDFG what it may read has the values of the program. -/
theorem view_updateHost (hp : Planned sdfg residency iface.argOrder plan)
    (hu : NamesUnambiguous iface)
    (hv : NoDeviceValue iface residency) (hr : sdfg.mayRead n) :
    sdfg.view (m.updateHost iface.owner plan.updateHost) n = iface.value residency m n := by
  unfold Interface.value Sdfg.view
  by_cases hdev : iface.OnDevice residency n
  · obtain ⟨d, ho, hd⟩ := id hdev
    rw [if_pos hdev]
    split_ifs with hh
    · exact host_updateHost ho ((hp.mem_host d).mpr (updated_of_owner hp hu hv ho hd hh (.inl hr)))
    · rfl
  · rw [if_neg hdev]
    congr 1
    apply if_neg
    rintro ⟨d, hd, ho⟩
    exact hdev ⟨d, ho, ((hp.mem_host d).mp hd).2.2.2⟩

/-- **A wrapped call is a call of the program.** -/
theorem Wrapped.value_eq (hp : Planned sdfg residency iface.argOrder plan)
    (hu : NamesUnambiguous iface)
    (hv : NoDeviceValue iface residency) {kernel : Kernel sdfg}
    (h : Wrapped iface plan kernel m m') :
    iface.value residency m' = (Event.call kernel).plain (iface.value residency m) := by
  obtain ⟨after, hcall, hkernel, rfl⟩ := h
  funext n
  show _ = if n ∈ sdfg.writeSet then kernel.compute (iface.value residency m) n
    else iface.value residency m n
  split_ifs with hw
  · rw [← kernel.reads _ _ (fun x hx => view_updateHost hp hu hv hx) n hw, ← hkernel n hw]
    unfold Interface.value Sdfg.view
    by_cases hdev : iface.OnDevice residency n
    · obtain ⟨d, ho, hd⟩ := id hdev
      rw [if_pos hdev]
      split_ifs with hh
      · have hwritten := Sdfg.writtenArg_eq_true (mem_containersForArg_of_owner ho hw) hw
        exact if_pos ⟨d, (hp.mem_device d).mpr
          ⟨updated_of_owner hp hu hv ho hd hh (.inr hw), hwritten⟩, ho⟩
      · apply device_updateDevice_of_notMem ho
        exact fun hmem => hh (onHost_of_updated ((hp.mem_device d).mp hmem).1 ho
          (sdfg.written_containers n hw))
    · rw [if_neg hdev]
      congr 1
      apply if_neg
      rintro ⟨d, hd, ho⟩
      exact hdev ⟨d, ho, ((hp.mem_device d).mp hd).1.2.2.2⟩
  · have hdevice := not_stale_of_planned hp m after hcall n hw
    have hhost := hcall.host_frame n hw
    unfold Interface.value Sdfg.view
    rw [hdevice]
    split_ifs with hdev hh
    · rfl
    · refine hhost.trans (if_neg ?_)
      rintro ⟨d, hd, ho⟩
      exact hdev ⟨d, ho, ((hp.mem_host d).mp hd).2.2.2⟩
    · rfl

/-- Whatever happens in a program, the values are those of a program with one memory. -/
def OneMemory (iface : Interface sdfg) (residency : AccResidency) (plan : AccTransferPlan) : Prop :=
  ∀ events m m', Execution iface residency plan events m m' →
    iface.value residency m' = events.foldl (fun v e => e.plain v) (iface.value residency m)

/-- **Two copies are as good as one memory** under a returned plan, where names are unambiguous and
no device-resident dummy crosses by value: through any calls, and whatever the program does between
them. -/
theorem planAccTransfers_oneMemory (iface : Interface sdfg) (residency : AccResidency) :
    match planAccTransfers sdfg residency iface.argOrder with
    | .error _ => True
    | .ok plan => NamesUnambiguous iface → NoDeviceValue iface residency →
        OneMemory iface residency plan := by
  cases hplan : planAccTransfers sdfg residency iface.argOrder with
  | error e => trivial
  | ok plan =>
    intro hu hv events m m' h
    have hp := planned_of_ok hplan
    induction h with
    | nil m => rfl
    | call h _ ih => rw [ih, h.value_eq hp hu hv, List.foldl_cons]
    | other h _ ih => rw [ih, h, List.foldl_cons, Event.plain]

end

/-! ## Dummies whose names are apart -/

/-- The dummies `p` and `q`, each with a member. -/
def apartSdfg : Sdfg where
  arrays := [⟨"p_w", false, false, "CPU_Heap"⟩, ⟨"q_vt", false, false, "CPU_Heap"⟩]
  arrays_nodup := by decide
  symbols := []
  readSet := ["p_w"]
  writeSet := ["q_vt"]
  written_containers := by decide
  read_containers := by decide

/-- Where each container comes from. -/
def apartOwner (n : String) : Option String :=
  if n = "p_w" then some "p" else if n = "q_vt" then some "q" else none

theorem apartOwner_cases {n d : String} (h : apartOwner n = some d) :
    (n = "p_w" ∧ d = "p") ∨ (n = "q_vt" ∧ d = "q") := by
  unfold apartOwner at h
  split at h
  · left
    exact ⟨‹_›, (Option.some.inj h).symm⟩
  · split at h
    · right
      exact ⟨‹_›, (Option.some.inj h).symm⟩
    · cases h

/-- The interface of that routine. -/
def apartInterface : Interface apartSdfg where
  argOrder := ["p", "q"]
  owner := apartOwner
  owner_mem := by
    intro n d h
    rcases apartOwner_cases h with ⟨-, rfl⟩ | ⟨-, rfl⟩ <;> decide
  owner_named := by
    intro n d h
    left
    rcases apartOwner_cases h with ⟨rfl, rfl⟩ | ⟨rfl, rfl⟩ <;> decide

/-- Both dummies are device-resident. -/
def apartResidency : AccResidency :=
  ⟨"velocity", [("p", .device), ("q", .device)], [], []⟩

/-- A kernel that adds 1 to what it reads. -/
def addOne : Kernel apartSdfg where
  compute v _ := v "p_w" + 1
  reads v v' h n _ := by rw [h "p_w" (.inl (by decide))]

/-- A kernel on the two containers of different dummies: host and device hold one memory. -/
theorem planAccTransfers_oneMemory_apart :
    OneMemory apartInterface apartResidency ⟨["p", "q"], ["q"], [],
      [("p", .host), ("q", .host)]⟩ := by
  have hplan : planAccTransfers apartSdfg apartResidency apartInterface.argOrder =
      .ok ⟨["p", "q"], ["q"], [], [("p", .host), ("q", .host)]⟩ := by decide
  have h := planAccTransfers_oneMemory apartInterface apartResidency
  rw [hplan] at h
  refine h ?_ ?_
  · unfold NamesUnambiguous
    decide
  · intro n d hn _ hscalar
    rcases apartOwner_cases hn with ⟨rfl, rfl⟩ | ⟨rfl, rfl⟩
    · exact absurd hscalar (by decide)
    · exact absurd hscalar (by decide)
/-! ## One dummy's name as a prefix of another's -/

/-- The dummies `p`, with a member `w`, and `p_diag`, with a member `vt`. -/
def prefixSdfg : Sdfg where
  arrays := [⟨"p_w", false, false, "CPU_Heap"⟩, ⟨"p_diag_vt", false, false, "CPU_Heap"⟩]
  arrays_nodup := by decide
  symbols := []
  readSet := ["p_w"]
  writeSet := ["p_diag_vt"]
  written_containers := by decide
  read_containers := by decide

/-- Where each container comes from. -/
def prefixOwner (n : String) : Option String :=
  if n = "p_w" then some "p" else if n = "p_diag_vt" then some "p_diag" else none

theorem prefixOwner_cases {n d : String} (h : prefixOwner n = some d) :
    (n = "p_w" ∧ d = "p") ∨ (n = "p_diag_vt" ∧ d = "p_diag") := by
  unfold prefixOwner at h
  split at h
  · left
    exact ⟨‹_›, (Option.some.inj h).symm⟩
  · split at h
    · right
      exact ⟨‹_›, (Option.some.inj h).symm⟩
    · cases h

/-- The interface of that routine. -/
def prefixInterface : Interface prefixSdfg where
  argOrder := ["p", "p_diag"]
  owner := prefixOwner
  owner_mem := by
    intro n d h
    rcases prefixOwner_cases h with ⟨-, rfl⟩ | ⟨-, rfl⟩ <;> decide
  owner_named := by
    intro n d h
    left
    rcases prefixOwner_cases h with ⟨rfl, rfl⟩ | ⟨rfl, rfl⟩ <;> decide

/-- Both dummies are device-resident. -/
def prefixResidency : AccResidency :=
  ⟨"velocity", [("p", .device), ("p_diag", .device)], [], []⟩

/-- `p` is attributed the container of `p_diag` too, and goes back to the device although the SDFG
does not write it. -/
theorem not_coherent_prefix :
    planAccTransfers prefixSdfg prefixResidency prefixInterface.argOrder =
        .ok ⟨["p", "p_diag"], ["p", "p_diag"], [], [("p", .host), ("p_diag", .host)]⟩ ∧
      ¬ Coherent prefixInterface prefixResidency
        ⟨["p", "p_diag"], ["p", "p_diag"], [], [("p", .host), ("p_diag", .host)]⟩ := by
  refine ⟨by decide, ?_⟩
  intro h
  have ha := h.attributed ⟨"p_diag_vt", false, false, "CPU_Heap"⟩ (by decide) rfl "p" (by decide)
  exact absurd (ha.mp (by decide)) (by decide)

end AccTransfers
