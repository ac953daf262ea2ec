import Oat.CfvPass
import Oat.InsertLoop

/-!
# The loops of the verification pass

`runOnMachineFunction` as it runs: two loops over the blocks and their
instructions, which put the check in front of the instruction they are
at. An instruction is marked when the pass has built it; the marks are
for the statements only.

Whatever the function, the loops end with one check before each indirect
transfer and nothing else changed (`run_only_inserts`).
-/

namespace Oat

namespace Cfv

open InsertLoop

structure Node where
  mi : MachineInstr
  built : Bool
deriving Repr, DecidableEq

def MachineFunction.nodes (mf : MachineFunction) : List (List Node) :=
  mf.map fun mbb => mbb.map fun mi => ⟨mi, false⟩

/-- `BuildMI`, on each instruction of a check. -/
def build (mis : List MachineInstr) : List Node := mis.map fun mi => ⟨mi, true⟩

/-- The body of the inner loop. Each of the four functions returns true. -/
def visitInstr (node : Node) : Option (List Node) :=
  if node.mi.desc.isCall || node.mi.desc.isIndirectBranch || node.mi.desc.isReturn then
    (instrumented node.mi).map build
  else none

/-- The pass after a number of turns of its loops. -/
def runPass (mf : MachineFunction) (n : Nat) : State Node := (step visitInstr)^[n] (start mf.nodes)

/-! ## What it is to do -/

/-- The verifier function and the target register of an indirect transfer. -/
def MachineInstr.transfer? : MachineInstr → Option (String × A64.XReg)
  | .blr rn => some ("__cfv_icall", rn)
  | .br rn => some ("__cfv_ijmp", rn)
  | .ret rn => some ("__cfv_ret", rn)
  | .retReallyLR => some ("__cfv_ret", lr)
  | _ => none

/-- The check of a transfer; none for any other instruction. -/
def MachineInstr.check (mi : MachineInstr) : List MachineInstr :=
  (mi.transfer?.map fun t => handleControlTransfer t.1 t.2).getD []

/-- A block with its checks. -/
def checked (mbb : MachineBasicBlock) : List Node :=
  mbb.flatMap fun mi => build mi.check ++ [⟨mi, false⟩]

/-- The instructions of a function that the pass has not built. -/
def erase (blocks : List (List Node)) : MachineFunction :=
  blocks.map fun block => (block.filter fun node => !node.built).map Node.mi

/-- What the loops have made of the function, and what they return. -/
structure OnlyInserts (mf : MachineFunction) (blocks : List (List Node)) (madeChange : Bool) :
    Prop where
  checks : blocks = mf.map checked
  erased : erase blocks = mf
  result : madeChange = true ↔ ∃ block ∈ blocks, ∃ node ∈ block, node.built = true
  model : runOnMachineFunction mf = (madeChange, blocks.map fun block => block.map Node.mi)

/-! ## What it does -/

theorem visitInstr_eq (mi : MachineInstr) (built : Bool) :
    visitInstr ⟨mi, built⟩ = mi.transfer?.map fun t => build (handleControlTransfer t.1 t.2) := by
  cases mi <;> try rfl
  all_goals
    unfold visitInstr
    split <;> rfl

theorem visitInstr_check (mi : MachineInstr) (built : Bool) :
    (visitInstr ⟨mi, built⟩).getD [] = build mi.check := by
  rw [visitInstr_eq, MachineInstr.check]
  cases mi.transfer? <;> rfl

theorem inserted_eq (mi : MachineInstr) : inserted mi = mi.check := by
  cases mi <;> try rfl
  all_goals
    unfold inserted
    split <;> rfl

theorem expand_nodes (mf : MachineFunction) :
    mf.nodes.map (expand visitInstr) = mf.map checked := by
  rw [MachineFunction.nodes, List.map_map]
  congr 1
  funext mbb
  simp only [Function.comp_apply, expand, checked, List.flatMap_map, visitInstr_check]

theorem map_mi_checked (mbb : MachineBasicBlock) : (checked mbb).map Node.mi = runOnBlock mbb := by
  rw [checked, runOnBlock, List.map_flatMap]
  congr 1
  funext mi
  simp [build, inserted_eq, Function.comp_def]

/-- Without the instructions built it is the block again. -/
theorem erase_checked (mbb : MachineBasicBlock) :
    ((checked mbb).filter fun node => !node.built).map Node.mi = mbb := by
  induction mbb with
  | nil => rfl
  | cons mi mbb ih =>
      have hcons : checked (mi :: mbb) = build mi.check ++ ⟨mi, false⟩ :: checked mbb := by
        simp [checked]
      have hbuilt : ((build mi.check).filter fun node => !node.built) = [] := by simp [build]
      rw [hcons, List.filter_append, hbuilt]
      simpa using ih

theorem visitInstr_isSome (mi : MachineInstr) (built : Bool) :
    (visitInstr ⟨mi, built⟩).isSome = !mi.check.isEmpty := by
  rw [visitInstr_eq, MachineInstr.check]
  cases mi.transfer? <;> rfl

theorem any_visit (mf : MachineFunction) :
    (mf.nodes.any fun block => block.any fun node => (visitInstr node).isSome) =
      mf.any fun mbb => mbb.any fun mi => !mi.check.isEmpty := by
  simp [MachineFunction.nodes, List.any_map, Function.comp_def, visitInstr_isSome]

/-- There is something built in a block exactly when it has a transfer. -/
theorem exists_built_iff (mbb : MachineBasicBlock) :
    (∃ node ∈ checked mbb, node.built = true) ↔ ∃ mi ∈ mbb, (!mi.check.isEmpty) = true := by
  constructor
  · rintro ⟨node, hnode, hbuilt⟩
    obtain ⟨mi, hmi, hnode⟩ := List.mem_flatMap.mp hnode
    refine ⟨mi, hmi, ?_⟩
    rcases List.mem_append.mp hnode with hnode | hnode
    · obtain ⟨new, hnew, -⟩ := List.mem_map.mp hnode
      simpa using List.ne_nil_of_mem hnew
    · obtain rfl := List.mem_singleton.mp hnode
      cases hbuilt
  · rintro ⟨mi, hmi, hcheck⟩
    obtain ⟨new, hnew⟩ := List.exists_mem_of_ne_nil mi.check (by simpa using hcheck)
    refine ⟨⟨new, true⟩, List.mem_flatMap.mpr ⟨mi, hmi, List.mem_append_left _ ?_⟩, rfl⟩
    exact List.mem_map.mpr ⟨new, hnew, rfl⟩

theorem onlyInserts (mf : MachineFunction) :
    OnlyInserts mf (mf.map checked) (mf.any fun mbb => mbb.any fun mi => !mi.check.isEmpty) := by
  refine ⟨rfl, ?_, ?_, ?_⟩
  · rw [erase, List.map_map]
    exact List.map_id'' erase_checked mf
  · simp only [List.any_eq_true, List.mem_map, exists_exists_and_eq_and, exists_built_iff]
  · rw [runOnMachineFunction, List.map_map]
    congr 1
    · simp only [inserted_eq]
    · exact List.map_congr_left fun mbb _ => (map_mi_checked mbb).symm

/-- For every function the loops end, with one check of six instructions
immediately before each BLR, BR, RET and RET_ReallyLR. Without the checks
the blocks are those of before. What the pass has built it never visits,
and its result says whether it has built anything. -/
theorem run_only_inserts (mf : MachineFunction) :
    (∃ n, (runPass mf n).Finished ∧ OnlyInserts mf (runPass mf n).done (runPass mf n).changed) ∧
      ∀ n, ∀ node ∈ (runPass mf n).ahead, node.built = false := by
  constructor
  · have hreaches : Reaches (step visitInstr) (start mf.nodes) _ := step_result _
    obtain ⟨n, hn⟩ := hreaches
    refine ⟨n, ?_⟩
    rw [runPass, hn, expand_nodes, any_visit]
    exact ⟨⟨rfl, rfl⟩, onlyInserts mf⟩
  · intro n node hnode
    obtain ⟨block, hblock, hnode⟩ := List.mem_flatten.mp (ahead_subset mf.nodes n hnode)
    obtain ⟨mbb, -, rfl⟩ := List.mem_map.mp hblock
    obtain ⟨mi, -, rfl⟩ := List.mem_map.mp hnode
    rfl

end Cfv

end Oat
