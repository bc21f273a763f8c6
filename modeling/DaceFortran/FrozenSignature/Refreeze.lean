/-
# What `refreeze` keeps

The drift check as a relation between a snapshot and the live SDFG, what the checks
of `refreeze` leave of a snapshot, and the contract of `refreeze`: an error leaves the
attached snapshot as it was, and a new snapshot is the old one less values and module
variables the SDFG no longer takes.
-/
import DaceFortran.FrozenSignature.FrozenSignature
import DaceFortran.Lib.AssocLists

open List

namespace FrozenSignature

variable {R : Type}

/-! ## The drift check as a relation -/

/-- The snapshot describes the live SDFG. -/
structure Signature.Verifies (frozen : Signature R) (sdfg : Sdfg R) : Prop where
  names : sdfg.dataNames.Perm frozen.dataNames
  dtypes : ∀ a ∈ frozen.args, a.sdfgName ∉ frozen.freeSymbols →
    ∀ dtype, sdfg.dtype? a.sdfgName = some dtype → dtype = a.dtype
  symbols : sdfg.freeSymbols = frozen.freeSymbols.toFinset

theorem sorted_eq_iff (l m : List String) : sorted l = sorted m ↔ l.Perm m := by
  constructor
  · intro h
    calc l.Perm (sorted l) := (perm_insertionSort _ l).symm
      _ = sorted m := h
      _ |>.Perm m := perm_insertionSort _ m
  · intro h
    have hp : (sorted l).Perm (sorted m) :=
      (perm_insertionSort _ l).trans (h.trans (perm_insertionSort _ m).symm)
    exact hp.eq_of_pairwise (fun a b _ _ => le_antisymm)
      (pairwise_insertionSort _ l) (pairwise_insertionSort _ m)

theorem Signature.dtypeDrift_eq_none_iff (frozen : Signature R) (sdfg : Sdfg R)
    (a : FrozenArg R) :
    frozen.dtypeDrift sdfg a = none ↔ (a.sdfgName ∉ frozen.freeSymbols →
      ∀ dtype, sdfg.dtype? a.sdfgName = some dtype → dtype = a.dtype) := by
  unfold Signature.dtypeDrift
  by_cases hs : a.sdfgName ∈ frozen.freeSymbols
  · simp [hs]
  · cases hd : sdfg.dtype? a.sdfgName with
    | none => simp [hs]
    | some live =>
      by_cases hl : live = a.dtype
      · simp [hs, hl]
      · simp [hs, hl]

/-- The check passes exactly on the snapshots that describe the SDFG. -/
theorem Signature.verifyAgainst_eq_ok_iff (frozen : Signature R) (sdfg : Sdfg R) :
    frozen.verifyAgainst sdfg = .ok () ↔ frozen.Verifies sdfg := by
  unfold Signature.verifyAgainst
  constructor
  · intro h
    by_cases hn : sorted sdfg.dataNames = sorted frozen.dataNames
    · simp only [hn, ne_eq, not_true_eq_false, if_false] at h
      cases hd : frozen.args.findSome? (frozen.dtypeDrift sdfg) with
      | some drift => simp [hd] at h
      | none =>
        by_cases hs : sdfg.freeSymbols = frozen.freeSymbols.toFinset
        · refine ⟨(sorted_eq_iff _ _).mp hn, ?_, hs⟩
          intro a ha
          exact (frozen.dtypeDrift_eq_none_iff sdfg a).mp (List.findSome?_eq_none_iff.mp hd a ha)
        · simp [hd, hs] at h
    · simp [hn] at h
  · intro h
    have hn := (sorted_eq_iff _ _).mpr h.names
    have hd : frozen.args.findSome? (frozen.dtypeDrift sdfg) = none :=
      List.findSome?_eq_none_iff.mpr fun a ha =>
        (frozen.dtypeDrift_eq_none_iff sdfg a).mpr (h.dtypes a ha)
    simp [hn, hd, h.symbols]

/-! ## Live names -/

theorem Sdfg.dtype?_eq_none_iff (sdfg : Sdfg R) (name : String) :
    sdfg.dtype? name = none ↔ name ∉ sdfg.argNames := AssocLists.lookup_eq_none

variable {sdfg : Sdfg R} {old new : Signature R}

variable {name : String} {a : FrozenArg R} {frozen : Signature R}

theorem Sdfg.exists_dtype (h : name ∈ sdfg.argNames) :
    ∃ dtype, sdfg.dtype? name = some dtype := by
  apply Option.ne_none_iff_exists'.mp
  intro hn
  exact (sdfg.dtype?_eq_none_iff name).mp hn h

/-! ## Relocation -/

/-- An argument without its place on the device. -/
def FrozenArg.hostSide (a : FrozenArg R) : FrozenArg R := { a with deviceStorage := "" }

theorem hostSide_eq {b : FrozenArg R} (h : b.hostSide = a.hostSide) :
    b.sdfgName = a.sdfgName ∧ b.dtype = a.dtype := by
  have hn : b.hostSide.sdfgName = a.hostSide.sdfgName := by rw [h]
  have hd : b.hostSide.dtype = a.hostSide.dtype := by rw [h]
  exact ⟨hn, hd⟩

/-! ## The new snapshot -/

/-- What the checks passed of an old snapshot. -/
structure Signature.Accepted (old new : Signature R) (sdfg : Sdfg R) : Prop where
  not_added : sdfg.freeSymbols ⊆ old.freeSymbols.toFinset
  not_dropped : old.droppedBuffers sdfg = []
  verifies : (old.shrunk sdfg).Verifies sdfg
  new_eq : new = old.shrunk sdfg

theorem Signature.resnapshot_eq_ok_iff (old new : Signature R) (sdfg : Sdfg R) :
    old.resnapshot sdfg = .ok new ↔ old.Accepted new sdfg := by
  unfold Signature.resnapshot
  constructor
  · intro h
    by_cases ha : sdfg.freeSymbols \ old.freeSymbols.toFinset = ∅
    · by_cases hd : old.droppedBuffers sdfg = []
      · cases hv : (old.shrunk sdfg).verifyAgainst sdfg with
        | error drift => simp [ha, hd, hv] at h
        | ok u =>
          refine ⟨Finset.sdiff_eq_empty_iff_subset.mp ha, hd,
            (Signature.verifyAgainst_eq_ok_iff _ _).mp hv, ?_⟩
          simpa [ha, hd, hv] using h.symm
      · simp [ha, hd] at h
    · simp [ha] at h
  · rintro ⟨ha, hd, hv, rfl⟩
    have ha' := Finset.sdiff_eq_empty_iff_subset.mpr ha
    have hv' := (Signature.verifyAgainst_eq_ok_iff _ _).mpr hv
    simp [ha', hd, hv']

theorem Signature.droppedBuffers_eq_nil_iff (frozen : Signature R) (sdfg : Sdfg R) :
    frozen.droppedBuffers sdfg = [] ↔
      ∀ a ∈ frozen.args, frozen.isBuffer a = true → a.sdfgName ∈ sdfg.argNames := by
  unfold Signature.droppedBuffers
  rw [map_eq_nil_iff, filter_eq_nil_iff]
  constructor
  · intro h a ha hb
    by_contra hn
    exact h a ha (by simp [hb, hn])
  · intro h a ha hb
    obtain ⟨hb, hn⟩ := Bool.and_eq_true_iff.mp hb
    exact of_decide_eq_true hn (h a ha hb)

/-- The arguments of the new snapshot are the surviving ones, in their order. -/
theorem Signature.shrunk_args_sublist (old : Signature R) (sdfg : Sdfg R) :
    ((old.shrunk sdfg).args.map FrozenArg.hostSide).Sublist
      (old.args.map FrozenArg.hostSide) := by
  have h : (old.shrunk sdfg).args.map FrozenArg.hostSide =
      (old.args.filter sdfg.survives).map FrozenArg.hostSide := by
    show ((old.args.filter sdfg.survives).map sdfg.relocate).map FrozenArg.hostSide = _
    rw [map_map]
    rfl
  rw [h]
  exact filter_sublist.map _

theorem Signature.mem_shrunk_args {old : Signature R}
    (ha : a ∈ old.args) (hs : sdfg.survives a = true) :
    sdfg.relocate a ∈ (old.shrunk sdfg).args :=
  mem_map_of_mem (mem_filter.mpr ⟨ha, hs⟩)

/-- A snapshot that was just taken is taken again as it is. -/
theorem Signature.shrunk_shrunk (old : Signature R) (sdfg : Sdfg R) :
    (old.shrunk sdfg).shrunk sdfg = old.shrunk sdfg := by
  have hk : (old.shrunk sdfg).keptSymbols sdfg = old.keptSymbols sdfg := by
    show (old.freeSymbols.filter (· ∈ sdfg.freeSymbols)).filter (· ∈ sdfg.freeSymbols) = _
    rw [filter_filter]
    simp [Signature.keptSymbols]
  have ha : ((old.shrunk sdfg).args.filter sdfg.survives).map sdfg.relocate =
      (old.shrunk sdfg).args := by
    have hf : (old.shrunk sdfg).args.filter sdfg.survives = (old.shrunk sdfg).args := by
      apply filter_eq_self.mpr
      intro b hb
      obtain ⟨a, ha, rfl⟩ := mem_map.mp hb
      exact (mem_filter.mp ha).2
    rw [hf]
    show ((old.args.filter sdfg.survives).map sdfg.relocate).map sdfg.relocate = _
    rw [map_map]
    rfl
  unfold Signature.shrunk at hk ha ⊢
  simp only [hk, ha]

theorem Signature.Accepted.again
    (h : old.Accepted new sdfg) : new.Accepted new sdfg := by
  obtain ⟨ha, hd, hv, rfl⟩ := h
  refine ⟨?_, ?_, ?_, ?_⟩
  · intro s hs
    exact hv.symbols ▸ hs
  · rw [Signature.droppedBuffers_eq_nil_iff] at hd ⊢
    intro b hb hbuf
    obtain ⟨a, ha, rfl⟩ := mem_map.mp hb
    exact hd a (mem_filter.mp ha).1 hbuf
  · rw [Signature.shrunk_shrunk]
    exact hv
  · exact (Signature.shrunk_shrunk old sdfg).symm

/-! ## The contract -/

/-- The new snapshot is the old one, in its order, less values and module variables that the SDFG
no longer takes. -/
structure Conservative (old new : Signature R) (sdfg : Sdfg R) : Prop where
  /-- the drift check passes on the new snapshot -/
  checked : new.verifyAgainst sdfg = .ok ()
  /-- and it means what it should -/
  verifies : new.Verifies sdfg
  args_sublist : (new.args.map FrozenArg.hostSide).Sublist (old.args.map FrozenArg.hostSide)
  symbols_sublist : new.freeSymbols.Sublist old.freeSymbols
  no_new_argument : ∀ name ∈ sdfg.argNames,
    name ∈ old.argNames ∨ name ∈ old.freeSymbols
  buffers_kept : ∀ a ∈ old.args, a.kind.mayShrink = false → a.sdfgName ∉ old.moduleNames →
    ∃ b ∈ new.args, b.hostSide = a.hostSide ∧ a.sdfgName ∈ sdfg.argNames ∧
      (a.sdfgName ∉ sdfg.freeSymbols → sdfg.dtype? a.sdfgName = some a.dtype)
  dropped : ∀ a ∈ old.args, (∀ b ∈ new.args, b.hostSide ≠ a.hostSide) →
    (a.kind.mayShrink = true ∨ a.sdfgName ∈ old.moduleNames) ∧
      a.sdfgName ∉ sdfg.argNames ∧ a.sdfgName ∉ sdfg.freeSymbols
  symbols_dropped : ∀ s ∈ old.freeSymbols, s ∉ new.freeSymbols → s ∉ sdfg.freeSymbols
  same_interface : new.entry = old.entry ∧ new.mangled = old.mangled ∧
    new.moduleSymbolOrigins = old.moduleSymbolOrigins ∧ new.provenance = old.provenance

theorem Signature.Verifies.live_name
    (h : frozen.Verifies sdfg) (hn : name ∈ sdfg.argNames) :
    name ∈ frozen.argNames ∨ name ∈ frozen.freeSymbols := by
  by_cases hs : name ∈ sdfg.freeSymbols
  · right
    rw [h.symbols] at hs
    exact mem_toFinset.mp hs
  · left
    have hm := h.names.mem_iff.mp (mem_filter.mpr ⟨hn, by simpa using hs⟩)
    exact (mem_filter.mp hm).1

/-- A surviving argument keeps everything but its place on the device. -/
theorem Signature.Accepted.kept
    (h : old.Accepted new sdfg) (ha : a ∈ old.args)
    (hs : sdfg.survives a = true) : ∃ b ∈ new.args, b.hostSide = a.hostSide := by
  refine ⟨sdfg.relocate a, ?_, rfl⟩
  rw [h.new_eq]
  exact Signature.mem_shrunk_args ha hs

theorem Signature.Accepted.conservative
    (h : old.Accepted new sdfg) : Conservative old new sdfg := by
  have hv : new.Verifies sdfg := h.new_eq ▸ h.verifies
  have hbuf := (old.droppedBuffers_eq_nil_iff sdfg).mp h.not_dropped
  refine
    { checked := (new.verifyAgainst_eq_ok_iff sdfg).mpr hv
      verifies := hv
      args_sublist := ?_
      symbols_sublist := ?_
      no_new_argument := ?_
      buffers_kept := ?_
      dropped := ?_
      symbols_dropped := ?_
      same_interface := ?_ }
  · rw [h.new_eq]
    exact old.shrunk_args_sublist sdfg
  · rw [h.new_eq]
    exact filter_sublist
  · intro name hn
    rcases hv.live_name hn with hm | hm
    · left
      rw [h.new_eq] at hm
      obtain ⟨b, hb, rfl⟩ := mem_map.mp hm
      obtain ⟨a, ha, rfl⟩ := mem_map.mp hb
      exact mem_map.mpr ⟨a, (mem_filter.mp ha).1, rfl⟩
    · right
      rw [h.new_eq] at hm
      exact (mem_filter.mp hm).1
  · intro a ha hk hm
    have hlive : a.sdfgName ∈ sdfg.argNames := hbuf a ha (by simp [Signature.isBuffer, hk, hm])
    have hs : sdfg.survives a = true := by simp [Sdfg.survives, hlive]
    obtain ⟨b, hb, hba⟩ := h.kept ha hs
    refine ⟨b, hb, hba, hlive, ?_⟩
    intro hfs
    obtain ⟨dtype, hd⟩ := Sdfg.exists_dtype hlive
    obtain ⟨hname, hdt⟩ := hostSide_eq hba
    have hb' : b.sdfgName ∉ new.freeSymbols := by
      rw [hv.symbols, mem_toFinset] at hfs
      rwa [hname]
    rw [hd, hv.dtypes b hb hb' dtype (by rw [hname]; exact hd), hdt]
  · intro a ha hdrop
    have hs : ¬ sdfg.survives a = true := by
      intro hs
      obtain ⟨b, hb, hba⟩ := h.kept ha hs
      exact hdrop b hb hba
    have hs' : a.sdfgName ∉ sdfg.argNames ∧ a.sdfgName ∉ sdfg.freeSymbols := by
      simpa [Sdfg.survives, not_or] using hs
    refine ⟨?_, hs'⟩
    by_contra hn
    rw [not_or, Bool.not_eq_true] at hn
    exact hs'.1 (hbuf a ha (by simp [Signature.isBuffer, hn.1, hn.2]))
  · intro s hs hn hlive
    apply hn
    rw [h.new_eq]
    exact mem_filter.mpr ⟨hs, by simpa using hlive⟩
  · rw [h.new_eq]
    exact ⟨rfl, rfl, rfl, rfl⟩

/-! ## Runs of `refreeze` -/

@[simp] theorem Sdfg.attach_attached (sdfg : Sdfg R) (frozen : Signature R) :
    (sdfg.attach frozen).attached = some frozen := rfl

/-- Nothing `refreeze` looks at depends on the attached snapshot. -/
theorem Signature.Accepted.attach
    (h : old.Accepted new sdfg) (frozen : Signature R) :
    old.Accepted new (sdfg.attach frozen) :=
  ⟨h.not_added, h.not_dropped, ⟨h.verifies.names, h.verifies.dtypes, h.verifies.symbols⟩,
    h.new_eq⟩

/-- The snapshot just attached is the one read back. -/
theorem Signature.Accepted.getFrozenSignature_attach
    (h : old.Accepted new sdfg) : (sdfg.attach new).getFrozenSignature = some new := by
  unfold Sdfg.getFrozenSignature
  simp only [Sdfg.attach_attached, Option.map_some]
  by_cases hc : new.freeSymbols ≠ [] ∧ new.symbolDtypes = []
  · rw [if_pos hc]
    have hd : (sdfg.attach new).symbolDtypesOf new.freeSymbols = new.symbolDtypes := by
      rw [h.new_eq]
      rfl
    rw [hd]
  · rw [if_neg hc]

/-- `refreeze` starts from the live SDFG. -/
theorem refreeze_run (sdfg : Sdfg R) :
    StateT.run (ExceptT.run refreeze) sdfg =
      StateT.run (ExceptT.run sdfg.refreezeLive) sdfg := rfl

theorem refreeze_run_none (h : sdfg.getFrozenSignature = none) :
    StateT.run (ExceptT.run refreeze) sdfg = (.error (.noSignature sdfg.name), sdfg) := by
  rw [refreeze_run, Sdfg.refreezeLive, h]
  rfl

theorem refreeze_run_some
    (h : sdfg.getFrozenSignature = some frozen) :
    StateT.run (ExceptT.run refreeze) sdfg =
      match frozen.resnapshot sdfg with
      | .error e => (.error e, sdfg)
      | .ok new => (.ok new, sdfg.attach new) := by
  rw [refreeze_run, Sdfg.refreezeLive, h]
  cases hr : frozen.resnapshot sdfg with
  | error e =>
    simp only [hr]
    rfl
  | ok new =>
    simp only [hr]
    rfl

/-- **`refreeze` is atomic and conservative**: an error leaves the SDFG and its snapshot as they
were; otherwise the new snapshot is attached, it is a conservative successor of the old one, and
refreezing again changes nothing. -/
theorem refreeze_atomic_conservative (sdfg : Sdfg R) :
    match StateT.run (ExceptT.run refreeze) sdfg with
    | (.error _, after) => after = sdfg
    | (.ok new, after) =>
      after = sdfg.attach new ∧ after.getFrozenSignature = some new ∧
        (∃ old, sdfg.getFrozenSignature = some old ∧ Conservative old new after) ∧
        StateT.run (ExceptT.run refreeze) after = (.ok new, after) := by
  cases hg : sdfg.getFrozenSignature with
  | none => rw [refreeze_run_none hg]
  | some old =>
    rw [refreeze_run_some hg]
    cases hr : old.resnapshot sdfg with
    | error e => rfl
    | ok new =>
      have hacc := ((old.resnapshot_eq_ok_iff new sdfg).mp hr).attach new
      have hget := ((old.resnapshot_eq_ok_iff new sdfg).mp hr).getFrozenSignature_attach
      refine ⟨rfl, hget, ⟨old, rfl, hacc.conservative⟩, ?_⟩
      have hagain : new.resnapshot (sdfg.attach new) = .ok new :=
        (new.resnapshot_eq_ok_iff new _).mpr hacc.again
      rw [refreeze_run_some hget, hagain]
      rfl

/-! ## Pipelines -/

/-- An optimization pass: it may change the arguments, the symbols and the arrays, and leaves the
snapshot alone. -/
structure Pass (R : Type) where
  apply : Sdfg R → Sdfg R
  attached_apply : ∀ sdfg, (apply sdfg).attached = sdfg.attached

/-- Passes, each followed by `refreeze`; the first error ends the run. -/
def pipeline : List (Pass R) → ExceptT RefreezeError (StateM (Sdfg R)) Unit
  | [] => pure ()
  | pass :: passes => do
    modify pass.apply
    let _ ← refreeze
    pipeline passes

/-- How a run ends, and the SDFG behind it. -/
def runPasses (passes : List (Pass R)) (sdfg : Sdfg R) : Except RefreezeError Unit × Sdfg R :=
  StateT.run (ExceptT.run (pipeline passes)) sdfg

/-- The contract of `refreeze` over a run: behind the passes the snapshot attached is a conservative
successor of the one the run began with; where `refreeze` fails, the pass in front of it is the only
one that was not refrozen. -/
structure KeepsContract (passes : List (Pass R)) (sdfg : Sdfg R) : Prop where
  conservative : ∀ old after, sdfg.attached = some old → passes ≠ [] →
    runPasses passes sdfg = (.ok (), after) → ∃ new, after.attached = some new ∧
      Conservative old new after
  atomic : ∀ e after, runPasses passes sdfg = (.error e, after) →
    ∃ done pass rest last, passes = done ++ pass :: rest ∧ after = pass.apply last ∧
      runPasses done sdfg = (.ok (), last)

/-- A conservative successor of a conservative successor is one. -/
theorem Conservative.trans {mid : Signature R} {first last : Sdfg R}
    (h : Conservative old mid first)
    (h' : Conservative mid new last) : Conservative old new last := by
  have hmodules : mid.moduleNames = old.moduleNames := by
    rw [Signature.moduleNames, h.same_interface.2.2.1, Signature.moduleNames]
  -- an argument of the first snapshot is one of the middle snapshot, but for its place on the
  -- device
  have hback : ∀ b ∈ mid.args, ∃ a ∈ old.args, a.hostSide = b.hostSide := fun b hb =>
    mem_map.1 (h.args_sublist.subset (mem_map_of_mem hb))
  have hnames : ∀ name ∈ mid.argNames, name ∈ old.argNames := by
    intro name hn
    obtain ⟨b, hb, rfl⟩ := mem_map.1 hn
    obtain ⟨a, ha, hab⟩ := hback b hb
    exact mem_map.2 ⟨a, ha, (hostSide_eq hab).1⟩
  have hsymbols : ∀ s, s ∈ mid.freeSymbols ↔ s ∈ first.freeSymbols := by
    intro s
    rw [h.verifies.symbols, mem_toFinset]
  have hlast : ∀ s, s ∈ new.freeSymbols ↔ s ∈ last.freeSymbols := by
    intro s
    rw [h'.verifies.symbols, mem_toFinset]
  refine
    { checked := h'.checked
      verifies := h'.verifies
      args_sublist := h'.args_sublist.trans h.args_sublist
      symbols_sublist := h'.symbols_sublist.trans h.symbols_sublist
      no_new_argument := ?_
      buffers_kept := ?_
      dropped := ?_
      symbols_dropped := fun s _ hs hlive => hs ((hlast s).2 hlive)
      same_interface := ?_ }
  · intro name hn
    exact (h'.no_new_argument name hn).imp (hnames name) (fun hs => h.symbols_sublist.subset hs)
  · intro a ha hk hm
    obtain ⟨b, hb, hba, -⟩ := h.buffers_kept a ha hk hm
    have hkind : b.kind = a.kind := congrArg (·.kind) hba
    obtain ⟨hname, hdtype⟩ := hostSide_eq hba
    obtain ⟨c, hc, hcb, hlive⟩ := h'.buffers_kept b hb (hkind ▸ hk) (by rwa [hmodules, hname])
    rw [hname, hdtype] at hlive
    exact ⟨c, hc, hcb.trans hba, hlive⟩
  · intro a ha hgone
    by_cases hmid : ∃ b ∈ mid.args, b.hostSide = a.hostSide
    · obtain ⟨b, hb, hba⟩ := hmid
      have hkind : b.kind = a.kind := congrArg (·.kind) hba
      have hdrop := h'.dropped b hb fun c hc hcb => hgone c hc (hcb.trans hba)
      rwa [hkind, hmodules, (hostSide_eq hba).1] at hdrop
    · -- dropped in front of the middle snapshot, an argument does not come back
      obtain ⟨hmay, harg, hsym⟩ := h.dropped a ha fun b hb hba => hmid ⟨b, hb, hba⟩
      have hsym' : a.sdfgName ∉ mid.freeSymbols := fun hs => hsym ((hsymbols _).1 hs)
      refine ⟨hmay, fun hn => ?_, fun hs => hsym' (h'.symbols_sublist.subset ((hlast _).2 hs))⟩
      rcases h'.no_new_argument _ hn with hn | hs
      · have hdata : a.sdfgName ∈ mid.dataNames := mem_filter.2 ⟨hn, by simpa using hsym'⟩
        exact harg (mem_of_mem_filter (h.verifies.names.mem_iff.2 hdata))
      · exact hsym' hs
  · obtain ⟨h₁, h₂, h₃, h₄⟩ := h.same_interface
    obtain ⟨h₁', h₂', h₃', h₄'⟩ := h'.same_interface
    exact ⟨h₁'.trans h₁, h₂'.trans h₂, h₃'.trans h₃, h₄'.trans h₄⟩

/-- The widths filled in for the symbols make no difference. -/
theorem Conservative.of_attached {frozen : Signature R} {after : Sdfg R}
    (hattached : sdfg.attached = some old)
    (hget : sdfg.getFrozenSignature = some frozen) (h : Conservative frozen new after) :
    Conservative old new after := by
  rw [Sdfg.getFrozenSignature, hattached, Option.map_some, Option.some.injEq] at hget
  subst hget
  split at h
  · exact ⟨h.1, h.2, h.3, h.4, h.5, h.6, h.7, h.8, h.9⟩
  · exact h

theorem runPasses_cons (pass : Pass R) (passes : List (Pass R)) (sdfg : Sdfg R) :
    runPasses (pass :: passes) sdfg =
      match StateT.run (ExceptT.run refreeze) (pass.apply sdfg) with
      | (.error e, after) => (.error e, after)
      | (.ok _, after) => runPasses passes after := by
  rw [runPasses, pipeline]
  show StateT.run (ExceptT.run (refreeze >>= fun _ => pipeline passes)) (pass.apply sdfg) = _
  rw [ExceptT.run_bind, StateT.run_bind]
  rcases StateT.run (ExceptT.run refreeze) (pass.apply sdfg) with ⟨_ | _, after⟩ <;> rfl

theorem keepsContract_of_error {pass : Pass R} {passes : List (Pass R)} {e : RefreezeError}
    (h : StateT.run (ExceptT.run refreeze) (pass.apply sdfg) = (.error e, pass.apply sdfg)) :
    KeepsContract (pass :: passes) sdfg := by
  have hrun := runPasses_cons pass passes sdfg
  rw [h] at hrun
  constructor
  · intro old after _ _ hok
    cases hrun.symm.trans hok
  · intro e' after herror
    cases hrun.symm.trans herror
    exact ⟨[], pass, passes, sdfg, rfl, rfl, rfl⟩

/-- **Passes and `refreeze` in turn**: any number of them keeps the contract towards the snapshot of
the build. -/
theorem pipeline_keepsContract (passes : List (Pass R)) (sdfg : Sdfg R) :
    KeepsContract passes sdfg := by
  induction passes generalizing sdfg with
  | nil => exact ⟨fun _ _ _ hne => absurd rfl hne, fun _ _ h => by cases h⟩
  | cons pass passes ih =>
    cases hget : (pass.apply sdfg).getFrozenSignature with
    | none => exact keepsContract_of_error (refreeze_run_none hget)
    | some frozen =>
      have hrefreeze := refreeze_run_some hget
      cases hr : frozen.resnapshot (pass.apply sdfg) with
      | error e =>
        rw [hr] at hrefreeze
        exact keepsContract_of_error hrefreeze
      | ok new =>
        have hrun := fun passes => runPasses_cons pass passes sdfg
        simp only [hrefreeze, hr] at hrun
        obtain ⟨hconservative, hatomic⟩ := ih ((pass.apply sdfg).attach new)
        constructor
        · intro old after hattached _ hok
          have hfirst : Conservative old new ((pass.apply sdfg).attach new) :=
            (((frozen.resnapshot_eq_ok_iff new _).1 hr).attach new).conservative.of_attached
              ((pass.attached_apply sdfg).trans hattached) hget
          rw [hrun] at hok
          by_cases hnil : passes = []
          · subst hnil
            cases hok
            exact ⟨new, rfl, hfirst⟩
          · obtain ⟨last, hlast, hnext⟩ := hconservative new after rfl hnil hok
            exact ⟨last, hlast, hfirst.trans hnext⟩
        · intro e after herror
          obtain ⟨done, failing, rest, last, rfl, rfl, hdone⟩ :=
            hatomic e after ((hrun _).symm.trans herror)
          exact ⟨pass :: done, failing, rest, last, rfl, rfl, (hrun done).trans hdone⟩

/-! ## Inputs that are no longer read -/

/-- `unread`: module variables whose array is an argument, so not transient, and is not read. -/
def Sdfg.unreadModuleInputs (sdfg : Sdfg R) (read : List String) : List String :=
  match sdfg.getFrozenSignature with
  | none => []
  | some frozen => frozen.moduleNames.filter fun name =>
    decide (name ∈ sdfg.arrays.map Prod.fst ∧ name ∈ sdfg.argNames ∧ name ∉ read)

/-- `drop_unread_module_inputs`, `read` being what `read_data` finds; `shapes` are the free symbols
that only the removed arrays named. -/
def Sdfg.dropUnreadModuleInputs (sdfg : Sdfg R) (read : List String) (shapes : Finset String) :
    Sdfg R :=
  let unread := sdfg.unreadModuleInputs read
  { sdfg with
    arglist := sdfg.arglist.filter fun arg => decide (arg.1 ∉ unread ∧
      arg.1 ∉ sdfg.freeSymbols ∩ shapes)
    arglist_nodup := sdfg.arglist_nodup.sublist (List.filter_sublist.map _)
    freeSymbols := sdfg.freeSymbols \ shapes
    arrays := sdfg.arrays.filter fun array => decide (array.1 ∉ unread) }

/-- The SDFG has lost some arguments and free symbols, nothing else that a snapshot describes. -/
structure Sdfg.Shrinks (sdfg after : Sdfg R) (kept : String → Bool) : Prop where
  arglist : after.arglist = sdfg.arglist.filter fun arg => kept arg.1
  symbols : after.freeSymbols ⊆ sdfg.freeSymbols
  gone : ∀ s ∈ sdfg.freeSymbols, s ∉ after.freeSymbols → s ∉ after.argNames

variable {after : Sdfg R} {kept : String → Bool}

theorem Sdfg.Shrinks.argNames_eq (h : sdfg.Shrinks after kept) :
    after.argNames = sdfg.argNames.filter kept := by
  rw [Sdfg.argNames, h.arglist, Sdfg.argNames, filter_map]
  rfl

theorem Sdfg.Shrinks.mem_argNames (h : sdfg.Shrinks after kept) (name : String) :
    name ∈ after.argNames ↔ name ∈ sdfg.argNames ∧ kept name = true := by
  rw [h.argNames_eq, mem_filter]

theorem Signature.shrunk_argNames (frozen : Signature R) (after : Sdfg R) :
    (frozen.shrunk after).argNames =
    frozen.argNames.filter fun name => decide (name ∈ after.argNames ∨
      name ∈ after.freeSymbols) := by
  show ((frozen.args.filter after.survives).map after.relocate).map (·.sdfgName) = _
  rw [map_map, Signature.argNames, filter_map]
  rfl

/-- Where the snapshot described the SDFG, the new one describes what is left. -/
theorem Signature.Verifies.shrinks (h : frozen.Verifies sdfg) (hs : sdfg.Shrinks after kept) :
    (frozen.shrunk after).Verifies after := by
  have hsymbols : ∀ s, s ∈ (frozen.shrunk after).freeSymbols ↔ s ∈ after.freeSymbols := by
    intro s
    have hold : s ∈ after.freeSymbols → s ∈ frozen.freeSymbols := fun hmem =>
      mem_toFinset.1 (h.symbols ▸ hs.symbols hmem)
    show s ∈ frozen.freeSymbols.filter (· ∈ after.freeSymbols) ↔ _
    simp only [mem_filter, decide_eq_true_eq]
    exact ⟨And.right, fun hmem => ⟨hold hmem, hmem⟩⟩
  -- an argument that is left and no symbol was none before
  have hdata : ∀ name ∈ after.argNames, name ∉ after.freeSymbols → name ∉ frozen.freeSymbols := by
    intro name hname hnot hmem
    exact hs.gone name (h.symbols ▸ mem_toFinset.2 hmem) hnot hname
  refine ⟨?_, ?_, ?_⟩
  · have hlive : after.dataNames = sdfg.dataNames.filter kept := by
      rw [Sdfg.dataNames, hs.argNames_eq, Sdfg.dataNames, filter_filter, filter_filter]
      apply filter_congr
      intro name hname
      by_cases hkept : kept name = true
      · have hiff : name ∈ after.freeSymbols ↔ name ∈ sdfg.freeSymbols := by
          refine ⟨fun hin => hs.symbols hin, fun hin => ?_⟩
          by_contra hnot
          exact hs.gone name hin hnot ((hs.mem_argNames name).2 ⟨hname, hkept⟩)
        simp [hkept, hiff]
      · simp [hkept]
    have hnew : (frozen.shrunk after).dataNames = frozen.dataNames.filter kept := by
      rw [Signature.dataNames, Signature.dataNames, frozen.shrunk_argNames after,
        filter_filter, filter_filter]
      apply filter_congr
      intro name hname
      have hnot := hdata name
      have hsub : name ∈ after.freeSymbols → name ∈ frozen.freeSymbols := fun hl =>
        List.mem_toFinset.1 (h.symbols ▸ hs.symbols hl)
      have hold : name ∉ frozen.freeSymbols → name ∈ sdfg.argNames := fun hf =>
        (mem_filter.1 (h.names.mem_iff.2 (mem_filter.2 ⟨hname, decide_eq_true hf⟩))).1
      rw [Bool.eq_iff_iff]
      simp only [hsymbols, Bool.and_eq_true, decide_eq_true_eq]
      have hargs := hs.mem_argNames name
      tauto
    rw [hlive, hnew]
    exact h.names.filter _
  · intro b hb hnot dtype hdtype
    obtain ⟨a, ha, rfl⟩ := mem_map.1 hb
    have hname : (after.relocate a).sdfgName = a.sdfgName := rfl
    rw [hname] at hnot hdtype
    have hlive : a.sdfgName ∈ after.argNames := by
      by_contra hn
      rw [(after.dtype?_eq_none_iff _).2 hn] at hdtype
      cases hdtype
    have hkept := ((hs.mem_argNames _).1 hlive).2
    rw [Sdfg.dtype?, hs.arglist, AssocLists.lookup_filter, if_pos hkept] at hdtype
    exact h.dtypes a (mem_filter.1 ha).1
      (hdata _ hlive fun hf => hnot ((hsymbols _).2 hf)) dtype hdtype
  · ext s
    rw [mem_toFinset, hsymbols]

theorem Sdfg.shrinks_dropUnread (sdfg : Sdfg R) (read : List String) (shapes : Finset String) :
    sdfg.Shrinks (sdfg.dropUnreadModuleInputs read shapes) fun name =>
      decide (name ∉ sdfg.unreadModuleInputs read ∧ name ∉ sdfg.freeSymbols ∩ shapes) := by
  refine ⟨rfl, Finset.sdiff_subset, fun s hs hnot hmem => ?_⟩
  obtain ⟨arg, harg, rfl⟩ := mem_map.1 hmem
  have hshapes : arg.1 ∈ shapes := by
    by_contra hn
    exact hnot (Finset.mem_sdiff.2 ⟨hs, hn⟩)
  have hkept := of_decide_eq_true (mem_filter.1 harg).2
  exact hkept.2 (Finset.mem_inter.2 ⟨hs, hshapes⟩)

/-- **Inputs that are no longer read can be dropped at any time**: after a `refreeze`, where no
buffer of the caller has the name of a symbol that goes with them, the next one accepts the SDFG,
and its snapshot lacks just these inputs and symbols. -/
theorem dropUnread_refreezes (sdfg : Sdfg R) (read : List String) (shapes : Finset String) :
    match StateT.run (ExceptT.run refreeze) sdfg with
    | (.error _, _) => True
    | (.ok old, after) =>
      (∀ a ∈ old.args, old.isBuffer a = true → a.sdfgName ∉ after.freeSymbols ∩ shapes) →
        ∃ new last, StateT.run (ExceptT.run refreeze) (after.dropUnreadModuleInputs read shapes) =
          (.ok new, last) ∧
          new.argNames = old.argNames.filter fun name =>
            if name ∈ after.freeSymbols then name ∉ shapes
              else name ∉ after.unreadModuleInputs read := by
  cases hget : sdfg.getFrozenSignature with
  | none => rw [refreeze_run_none hget]; trivial
  | some frozen =>
    rw [refreeze_run_some hget]
    cases hr : frozen.resnapshot sdfg with
    | error e => trivial
    | ok old =>
      have hacc := (frozen.resnapshot_eq_ok_iff old sdfg).1 hr
      have hagain := hacc.again.attach old
      intro hbuffers
      have hverifies : old.Verifies (sdfg.attach old) := by
        have h := hacc.verifies
        rw [← hacc.new_eq] at h
        exact ⟨h.names, h.dtypes, h.symbols⟩
      have hgetOld := hacc.getFrozenSignature_attach
      generalize hafter : sdfg.attach old = after at hagain hbuffers hverifies hgetOld ⊢
      have hshrinks := after.shrinks_dropUnread read shapes
      have hattached : (after.dropUnreadModuleInputs read shapes).attached = some old := by
        rw [← hafter]
        rfl
      generalize hdropped : after.dropUnreadModuleInputs read shapes =
        dropped at hshrinks hattached ⊢
      -- the widths of the symbols may be filled in anew
      obtain ⟨widths, hwidths⟩ : ∃ widths, dropped.getFrozenSignature =
          some { old with symbolDtypes := widths } := by
        rw [Sdfg.getFrozenSignature, hattached, Option.map_some]
        split
        · exact ⟨_, rfl⟩
        · exact ⟨old.symbolDtypes, rfl⟩
      have hkept : ∀ a ∈ old.args, old.isBuffer a = true → a.sdfgName ∈ dropped.argNames := by
        intro a ha hb
        have hlive := (Signature.droppedBuffers_eq_nil_iff _ _).1 hagain.not_dropped a ha hb
        have hmodule : a.sdfgName ∉ old.moduleNames :=
          of_decide_eq_true (Bool.and_eq_true_iff.1 hb).2
        have hunread : a.sdfgName ∉ after.unreadModuleInputs read := fun hmem => by
          rw [Sdfg.unreadModuleInputs, hgetOld] at hmem
          exact hmodule (List.mem_filter.1 hmem).1
        exact (hshrinks.mem_argNames _).2 ⟨hlive, decide_eq_true ⟨hunread, hbuffers a ha hb⟩⟩
      generalize hold : { old with symbolDtypes := widths } = old' at hwidths
      have haccepted : old'.Accepted (old'.shrunk dropped) dropped := by
        subst hold
        exact ⟨hshrinks.symbols.trans hverifies.symbols.le,
          (Signature.droppedBuffers_eq_nil_iff _ _).2 hkept,
          Signature.Verifies.shrinks ⟨hverifies.names, hverifies.dtypes,
            hverifies.symbols⟩ hshrinks, rfl⟩
      refine ⟨_, _, by rw [refreeze_run_some hwidths,
        (Signature.resnapshot_eq_ok_iff _ _ _).2 haccepted], ?_⟩
      rw [Signature.shrunk_argNames, ← hold]
      apply List.filter_congr
      intro name hname
      have hlive : name ∈ after.argNames ∨ name ∈ after.freeSymbols := by
        have h : name ∈ old.argNames := hname
        rw [hagain.new_eq, Signature.shrunk_argNames] at h
        exact of_decide_eq_true (List.mem_filter.1 h).2
      have hargs := hshrinks.mem_argNames name
      have hsymbols : name ∈ dropped.freeSymbols ↔ name ∈ after.freeSymbols ∧ name ∉ shapes := by
        rw [← hdropped]
        exact Finset.mem_sdiff
      by_cases hs : name ∈ after.freeSymbols
      · by_cases hshape : name ∈ shapes
        · simp [hargs, hsymbols, hs, hshape]
        · simp [hsymbols, hs, hshape]
      · simp [hargs, hsymbols, hs, hlive.resolve_right hs]

/-- Dropping the module inputs that are no longer read, as a pass. -/
def dropPass (read : List String) (shapes : Finset String) : Pass R where
  apply sdfg := sdfg.dropUnreadModuleInputs read shapes
  attached_apply _ := rfl

/-- A routine of one array, with the signature of its build. -/
def scaleSdfg : Sdfg Unit where
  name := "scale"
  arglist := [("a", "float64")]
  arglist_nodup := by decide
  freeSymbols := ∅
  arrays := [("a", "CPU_Heap")]
  attached := some ⟨"scale", "scale",
    [⟨"a", "a", .array, "float64", 1, ["8"], "inout", true, "CPU_Heap", "", ()⟩],
    [], [], [], ()⟩

/-- Two rounds of dropping and `refreeze` on it. -/
theorem pipeline_keepsContract_drop :
    KeepsContract [dropPass ["a"] ∅, dropPass [] ∅] scaleSdfg :=
  pipeline_keepsContract _ _

end FrozenSignature
