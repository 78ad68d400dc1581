import TreeEditor.Edit.Json
import TreeEditor.Proofs.Effect
import TreeEditor.Proofs.Encoding
import TreeEditor.Script.Json

/-!
# Reading back edits and instructions

Edits and instructions are restored from their forms, field by field (`Edit.restores`,
`Instruction.restores`). What they bring along must be well-formed, and their positions and
distances must fit 64 bits, as all do that have been read (`Edit.Fits`, `Instruction.Fits`).
Together with the reading of texts this gives that nothing is lost when a node, an edit or an
instruction is written (`decodeText_compact`).
-/

namespace TreeEditor

open Json

/-! ## What fits -/

/-- The positions in a slot. -/
def Slot.positions : Slot → List Nat
  | placeholder | optional => []
  | list position => [position]
  | member block position => [block, position]

/-- The positions in a path. -/
def Path.positions (path : Path) : List Nat := path.flatMap fun step => step.slot.positions

/-- The positions in the address of a property. -/
def BranchPath.positions (branch : BranchPath) : List Nat := Path.positions branch.owner

namespace Edit

/-- The positions that an edit records. -/
def positions : Edit → List Nat
  | insert branch slot _ | remove branch slot _ | replace branch slot _ _ | move branch slot _ =>
    branch.positions ++ slot.positions
  | assign branch _ _ | unassign branch _ _ => branch.positions
  | insertBlock branch block _ | removeBlock branch block _ | moveBlock branch block _
  | changeReplication branch block _ _ => branch.positions ++ [block]
  | splitBlock branch block position _ | mergeBlocks branch block position _ =>
    branch.positions ++ [block, position]
  | setValue owner _ _ _ => Path.positions owner

/-- The distances that an edit records. -/
def distances : Edit → List Int
  | move _ _ delta | moveBlock _ _ delta => [delta]
  | _ => []

/-- The numbers that an edit records fit 64 bits. -/
def Fits (edit : Edit) : Prop :=
  (∀ n ∈ edit.positions, n < Text.positionBound) ∧
    ∀ n ∈ edit.distances, -signedBound ≤ n ∧ n < signedBound

instance : DecidablePred Fits := fun _ => inferInstanceAs (Decidable (_ ∧ _))

end Edit

namespace Instruction

/-- The nodes that an instruction brings along. -/
def nodes : Instruction → List Node
  | insert _ node | replace _ node => [node]
  | assign _ node => node.toList
  | insertBlock _ _ content => content.header.pattern :: content.header.source :: content.members
  | _ => []

/-- The positions that an instruction gives, apart from those in the texts of its paths. -/
def positions : Instruction → List Nat
  | insertBlock _ block _ | removeBlock _ block | mergeBlocks _ block | moveBlock _ block _
  | changeReplication _ block _ => [block]
  | splitBlock _ block position => [block, position]
  | _ => []

/-- The distances that an instruction gives. -/
def distances : Instruction → List Int
  | move _ delta | moveBlock _ _ delta => [delta]
  | _ => []

/-- All that an instruction brings along is well-formed. -/
def WellFormed (instruction : Instruction) : Prop :=
  ∀ node ∈ instruction.nodes, node.WellFormed

/-- The numbers that an instruction gives fit 64 bits. -/
def Fits (instruction : Instruction) : Prop :=
  (∀ n ∈ instruction.positions, n < Text.positionBound) ∧
    ∀ n ∈ instruction.distances, -signedBound ≤ n ∧ n < signedBound

instance : DecidablePred WellFormed := fun instruction =>
  inferInstanceAs (Decidable (∀ node ∈ instruction.nodes, node.WellFormed))

instance : DecidablePred Fits := fun _ => inferInstanceAs (Decidable (_ ∧ _))

end Instruction

/-! ## Paths -/

/-- A slot is restored. -/
theorem Slot.restores {slot : Slot} (h : ∀ n ∈ slot.positions, n < Text.positionBound) :
    Slot.decoder.Restores slot.toJson slot := by
  cases slot with
  | placeholder => exact Decoder.restores_name fun _ => rfl
  | optional => exact Decoder.restores_name fun _ => rfl
  | list position =>
    have hposition := Decoder.restores_position (h position List.mem_cons_self)
    refine Decoder.restores_choice fun depth hroom => ?_
    simp only [hposition depth hroom, Option.map_some]
  | member block position =>
    simp only [positions, List.forall_mem_cons] at h
    refine Decoder.restores_choice fun depth hroom => ?_
    refine Decoder.restores_record (fun _ hroom => ?_) depth hroom
    exact .bind (.required hroom rfl (Decoder.restores_position h.1))
      (.bind (.required hroom rfl (Decoder.restores_position h.2.1)) .pure)

/-- A path is restored. -/
theorem Path.restores {path : Path} (h : ∀ n ∈ path.positions, n < Text.positionBound) :
    Path.decoder.Restores path.toJson path := by
  refine Decoder.restores_list fun step hstep => Decoder.restores_record fun _ hroom => ?_
  have hslot : Slot.decoder.Restores step.slot.toJson step.slot := Slot.restores fun n hn =>
    h n (List.mem_flatMap.mpr ⟨step, hstep, hn⟩)
  exact .bind (.required hroom rfl (Decoder.restores_text step.property))
    (.bind (.required hroom rfl hslot) .pure)

/-- The address of a property is restored. -/
theorem BranchPath.restores {branch : BranchPath}
    (h : ∀ n ∈ branch.positions, n < Text.positionBound) :
    BranchPath.decoder.Restores branch.toJson branch :=
  Decoder.restores_record fun _ hroom => .bind (.required hroom rfl (Path.restores h))
    (.bind (.required hroom rfl (Decoder.restores_text branch.property)) .pure)

/-- All of the form of a position is kept. -/
theorem kept_nat {n : Nat} (h : n < Text.positionBound) : (Json.nat n).Kept := by
  have hbound : n < 2 ^ 64 := h
  exact .int (by omega) (by omega)

/-- All of the form of a slot is kept. -/
theorem Slot.kept_toJson {slot : Slot} (h : ∀ n ∈ slot.positions, n < Text.positionBound) :
    slot.toJson.Kept := by
  cases slot with
  | placeholder => exact .str _
  | optional => exact .str _
  | list position => exact kept_obj_cons (kept_nat (h position List.mem_cons_self)) kept_obj_nil
  | member block position =>
    simp only [positions, List.forall_mem_cons] at h
    exact kept_obj_cons (kept_obj_cons (kept_nat h.1)
      (kept_obj_cons (kept_nat h.2.1) kept_obj_nil)) kept_obj_nil

/-- All of the form of a path is kept. -/
theorem Path.kept_toJson {path : Path} (h : ∀ n ∈ path.positions, n < Text.positionBound) :
    path.toJson.Kept := by
  refine kept_list fun step hstep => kept_obj_cons (.str _) (kept_obj_cons ?_ kept_obj_nil)
  exact Slot.kept_toJson fun n hn => h n (List.mem_flatMap.mpr ⟨step, hstep, hn⟩)

/-- All of the form of the address of a property is kept. -/
theorem BranchPath.kept_toJson {branch : BranchPath}
    (h : ∀ n ∈ branch.positions, n < Text.positionBound) : branch.toJson.Kept :=
  kept_obj_cons (Path.kept_toJson h) (kept_obj_cons (.str _) kept_obj_nil)

/-- All of the form of a signed distance is kept. -/
theorem kept_distance {n : Int} (h : -signedBound ≤ n ∧ n < signedBound) : (Json.int n).Kept := by
  have hlow : -2 ^ 63 ≤ n := h.1
  have hhigh : n < 2 ^ 63 := h.2
  exact .int hlow (by omega)

/-! ## Nodes that are recorded -/

/-- A recorded item is restored. -/
theorem Node.restores_item (lenient : Bool) {item : Option Node}
    (h : ∀ node ∈ item, node.WellFormed) :
    (Decoder.nullable (Node.decoder lenient)).Restores (.ofOption (item.map Node.toJson)) item :=
  Decoder.restores_nullable (fun node _ => node.toJson_ne_null) fun node hnode =>
    Node.restores lenient (h node hnode)

/-- A recorded header is restored. -/
theorem Header.restores {header : Header Node} (hpattern : header.pattern.WellFormed)
    (hsource : header.source.WellFormed) : Header.decoder.Restores header.toJson header :=
  Decoder.restores_record fun _ hroom => by
    rw [← List.append_nil (header.fields Node.toJson)] at hroom ⊢
    exact Header.gives false hroom nofun (Node.restores false hpattern)
      (Node.restores false hsource)

/-- A recorded block is restored. -/
theorem Block.restores_toJson (lenient : Bool) {block : Block Node Node}
    (h : ∀ node ∈ block.header.pattern :: block.header.source :: block.members,
      node.WellFormed) : (Block.decoder lenient).Restores block.toJson block := by
  simp only [List.forall_mem_cons] at h
  exact Block.restores lenient (Node.restores lenient h.1) (Node.restores lenient h.2.1)
    fun node hnode => Node.restores lenient (h.2.2 node hnode)

/-- All of the form of a recorded item is kept. -/
theorem Node.kept_item (item : Option Node) : (ofOption (item.map Node.toJson)).Kept :=
  kept_ofOption fun node _ => node.kept_toJson

/-- All of the form of a recorded header is kept. -/
theorem Header.kept_toJson (header : Header Node) : header.toJson.Kept := by
  rw [toJson, ← List.append_nil (header.fields Node.toJson)]
  exact kept_fields header.pattern.kept_toJson header.source.kept_toJson kept_obj_nil

/-- All of the form of a recorded block is kept. -/
theorem Block.kept_toJson (block : Block Node Node) : block.toJson.Kept :=
  kept_encode fun node _ => node.kept_toJson

/-! ## Edits -/

namespace Edit

/-- An edit is restored when it is read from its record. -/
theorem restores_of_gives {name : String} {members : List (String × Json)} {edit : Edit}
    (h : ∀ depth, (∀ member ∈ members, member.2.nesting ≤ depth) →
      Record.Gives (recordOf name depth) members edit) :
    Edit.decoder.Restores (.obj [(name, .obj members)]) edit :=
  Decoder.restores_choice fun depth => Decoder.restores_record h depth

/-- An edit that starts with the address of a property is restored when the rest of it is. -/
theorem restores_of_branch {name : String} {branch : BranchPath} {members : List (String × Json)}
    {rest : BranchPath → Nat → Record Edit} {edit : Edit}
    (hbranch : ∀ n ∈ branch.positions, n < Text.positionBound)
    (hname : ∀ depth, recordOf name depth = branchField depth >>= fun branch => rest branch depth)
    (hinner : members.filter (·.1 = "inner") = [])
    (h : ∀ depth, (∀ member ∈ ("inner", branch.toJson) :: members, member.2.nesting ≤ depth) →
      Record.Gives (rest branch depth) (("inner", branch.toJson) :: members) edit) :
    Edit.decoder.Restores (.obj [(name, .obj (("inner", branch.toJson) :: members))]) edit := by
  refine restores_of_gives fun depth hroom => ?_
  rw [hname]
  refine .bind (.required hroom ?_ (BranchPath.restores hbranch)) (h depth hroom)
  rw [List.filter_cons_of_pos (by simp), hinner]

/-- An edit of which all fits is restored from its form. -/
theorem restores {edit : Edit} (hedit : edit.WellFormed) (hfits : edit.Fits) :
    Edit.decoder.Restores edit.toJson edit := by
  obtain ⟨hpositions, hdistances⟩ := hfits
  cases edit with
  | insert branch slot node | remove branch slot node =>
    obtain ⟨hbranch, hslot⟩ := List.forall_mem_append.mp hpositions
    have hnode := hedit node (by simp [nodes])
    exact restores_of_branch hbranch (fun _ => rfl) rfl fun _ hroom =>
      .bind (.required hroom rfl (Slot.restores hslot))
        (.bind (.required hroom rfl (Node.restores false hnode)) .pure)
  | replace branch slot before after =>
    obtain ⟨hbranch, hslot⟩ := List.forall_mem_append.mp hpositions
    have hbefore := hedit before (by simp [nodes])
    have hafter := hedit after (by simp [nodes])
    exact restores_of_branch hbranch (fun _ => rfl) rfl fun _ hroom =>
      .bind (.required hroom rfl (Slot.restores hslot))
        (.bind (.required hroom rfl (Node.restores false hbefore))
          (.bind (.required hroom rfl (Node.restores false hafter)) .pure))
  | move branch slot delta =>
    obtain ⟨hbranch, hslot⟩ := List.forall_mem_append.mp hpositions
    obtain ⟨hlow, hhigh⟩ := hdistances delta List.mem_cons_self
    exact restores_of_branch hbranch (fun _ => rfl) rfl fun _ hroom =>
      .bind (.required hroom rfl (Slot.restores hslot))
        (.bind (.required hroom rfl (Decoder.restores_distance hlow hhigh)) .pure)
  | assign branch before after =>
    have hbefore : ∀ node ∈ before, node.WellFormed := fun node hnode =>
      hedit node (by simpa [nodes] using .inr hnode)
    have hafter := hedit after (by simp [nodes])
    exact restores_of_branch hpositions (fun _ => rfl) rfl fun _ hroom =>
      .bind (.omittable hroom rfl (Node.restores_item false hbefore))
        (.bind (.required hroom rfl (Node.restores false hafter)) .pure)
  | unassign branch item restore =>
    have hitem := hedit item (by simp [nodes])
    have hrestore : ∀ node ∈ restore, node.WellFormed := fun node hnode =>
      hedit node (by simpa [nodes] using .inr hnode)
    exact restores_of_branch hpositions (fun _ => rfl) rfl fun _ hroom =>
      .bind (.required hroom rfl (Node.restores false hitem))
        (.bind (.omittable hroom rfl (Node.restores_item false hrestore)) .pure)
  | insertBlock branch block content | removeBlock branch block content =>
    obtain ⟨hbranch, hblock⟩ := List.forall_mem_append.mp hpositions
    exact restores_of_branch hbranch (fun _ => rfl) rfl fun _ hroom =>
      .bind (.required hroom rfl (Decoder.restores_position (hblock block List.mem_cons_self)))
        (.bind (.required hroom rfl (Block.restores_toJson false hedit)) .pure)
  | splitBlock branch block position header | mergeBlocks branch block position header =>
    obtain ⟨hbranch, hnumbers⟩ := List.forall_mem_append.mp hpositions
    have hheader := Header.restores (hedit header.pattern (by simp [nodes]))
      (hedit header.source (by simp [nodes]))
    exact restores_of_branch hbranch (fun _ => rfl) rfl fun _ hroom =>
      .bind (.required hroom rfl (Decoder.restores_position (hnumbers block (by simp))))
        (.bind (.required hroom rfl (Decoder.restores_position (hnumbers position (by simp))))
          (.bind (.required hroom rfl hheader) .pure))
  | moveBlock branch block delta =>
    obtain ⟨hbranch, hblock⟩ := List.forall_mem_append.mp hpositions
    obtain ⟨hlow, hhigh⟩ := hdistances delta List.mem_cons_self
    exact restores_of_branch hbranch (fun _ => rfl) rfl fun _ hroom =>
      .bind (.required hroom rfl (Decoder.restores_position (hblock block List.mem_cons_self)))
        (.bind (.required hroom rfl (Decoder.restores_distance hlow hhigh)) .pure)
  | changeReplication branch block before after =>
    obtain ⟨hbranch, hblock⟩ := List.forall_mem_append.mp hpositions
    exact restores_of_branch hbranch (fun _ => rfl) rfl fun _ hroom =>
      .bind (.required hroom rfl (Decoder.restores_position (hblock block List.mem_cons_self)))
        (.bind (.required hroom rfl (before.restores false))
          (.bind (.required hroom rfl (after.restores false)) .pure))
  | setValue owner property before after =>
    exact restores_of_gives fun _ hroom => .bind (.required hroom rfl (Path.restores hpositions))
      (.bind (.required hroom rfl (Decoder.restores_text property))
        (.bind (.required hroom rfl before.restores)
          (.bind (.required hroom rfl after.restores) .pure)))

/-- All of the form of an edit is kept when all of its record is. -/
theorem kept_of_branch {name : String} {branch : BranchPath} {members : List (String × Json)}
    (hbranch : ∀ n ∈ branch.positions, n < Text.positionBound) (h : (obj members).Kept) :
    (obj [(name, .obj (("inner", branch.toJson) :: members))]).Kept :=
  kept_obj_cons (kept_obj_cons (BranchPath.kept_toJson hbranch) h) kept_obj_nil

/-- All of the form of an edit is kept when its numbers fit. -/
theorem kept_toJson {edit : Edit} (hfits : edit.Fits) : edit.toJson.Kept := by
  obtain ⟨hpositions, hdistances⟩ := hfits
  cases edit with
  | insert branch slot node | remove branch slot node =>
    obtain ⟨hbranch, hslot⟩ := List.forall_mem_append.mp hpositions
    exact kept_of_branch hbranch (kept_obj_cons (Slot.kept_toJson hslot)
      (kept_obj_cons node.kept_toJson kept_obj_nil))
  | replace branch slot before after =>
    obtain ⟨hbranch, hslot⟩ := List.forall_mem_append.mp hpositions
    exact kept_of_branch hbranch (kept_obj_cons (Slot.kept_toJson hslot)
      (kept_obj_cons before.kept_toJson (kept_obj_cons after.kept_toJson kept_obj_nil)))
  | move branch slot delta =>
    obtain ⟨hbranch, hslot⟩ := List.forall_mem_append.mp hpositions
    exact kept_of_branch hbranch (kept_obj_cons (Slot.kept_toJson hslot)
      (kept_obj_cons (kept_distance (hdistances delta List.mem_cons_self)) kept_obj_nil))
  | assign branch before after =>
    exact kept_of_branch hpositions (kept_obj_cons (Node.kept_item before)
      (kept_obj_cons after.kept_toJson kept_obj_nil))
  | unassign branch item restore =>
    exact kept_of_branch hpositions (kept_obj_cons item.kept_toJson
      (kept_obj_cons (Node.kept_item restore) kept_obj_nil))
  | insertBlock branch block content | removeBlock branch block content =>
    obtain ⟨hbranch, hblock⟩ := List.forall_mem_append.mp hpositions
    exact kept_of_branch hbranch (kept_obj_cons (kept_nat (hblock block List.mem_cons_self))
      (kept_obj_cons content.kept_toJson kept_obj_nil))
  | splitBlock branch block position header | mergeBlocks branch block position header =>
    obtain ⟨hbranch, hnumbers⟩ := List.forall_mem_append.mp hpositions
    exact kept_of_branch hbranch (kept_obj_cons (kept_nat (hnumbers block (by simp)))
      (kept_obj_cons (kept_nat (hnumbers position (by simp)))
        (kept_obj_cons header.kept_toJson kept_obj_nil)))
  | moveBlock branch block delta =>
    obtain ⟨hbranch, hblock⟩ := List.forall_mem_append.mp hpositions
    exact kept_of_branch hbranch (kept_obj_cons (kept_nat (hblock block List.mem_cons_self))
      (kept_obj_cons (kept_distance (hdistances delta List.mem_cons_self)) kept_obj_nil))
  | changeReplication branch block before after =>
    obtain ⟨hbranch, hblock⟩ := List.forall_mem_append.mp hpositions
    exact kept_of_branch hbranch (kept_obj_cons (kept_nat (hblock block List.mem_cons_self))
      (kept_obj_cons before.kept_toJson (kept_obj_cons after.kept_toJson kept_obj_nil)))
  | setValue owner property before after =>
    refine kept_obj_cons (kept_obj_cons (Path.kept_toJson hpositions)
      (kept_obj_cons (.str property) ?_)) kept_obj_nil
    exact kept_obj_cons before.kept_toJson (kept_obj_cons after.kept_toJson kept_obj_nil)

end Edit

/-! ## Instructions -/

namespace Instruction

/-- All of the form of an instruction is kept when its numbers fit. -/
theorem kept_toJson {instruction : Instruction} (hfits : instruction.Fits) :
    instruction.toJson.Kept := by
  obtain ⟨hpositions, hdistances⟩ := hfits
  refine kept_obj_cons (.str _) ?_
  cases instruction with
  | insert path node | replace path node =>
    exact kept_obj_cons (.str path) (kept_obj_cons node.kept_toJson kept_obj_nil)
  | remove path | unassign path => exact kept_obj_cons (.str path) kept_obj_nil
  | move path delta =>
    have hdelta := hdistances delta List.mem_cons_self
    exact kept_obj_cons (.str path) (kept_obj_cons (kept_distance hdelta) kept_obj_nil)
  | assign path node =>
    exact kept_obj_cons (.str path) (kept_obj_cons (Node.kept_item node) kept_obj_nil)
  | insertBlock branch block content =>
    have hblock := hpositions block List.mem_cons_self
    exact kept_obj_cons (.str branch) (kept_obj_cons (kept_nat hblock)
      (kept_obj_cons content.kept_toJson kept_obj_nil))
  | removeBlock branch block | mergeBlocks branch block =>
    have hblock := hpositions block List.mem_cons_self
    exact kept_obj_cons (.str branch) (kept_obj_cons (kept_nat hblock) kept_obj_nil)
  | splitBlock branch block position =>
    have hblock := hpositions block List.mem_cons_self
    have hposition := hpositions position (List.mem_cons_of_mem _ List.mem_cons_self)
    exact kept_obj_cons (.str branch) (kept_obj_cons (kept_nat hblock)
      (kept_obj_cons (kept_nat hposition) kept_obj_nil))
  | moveBlock branch block delta =>
    have hblock := hpositions block List.mem_cons_self
    have hdelta := hdistances delta List.mem_cons_self
    exact kept_obj_cons (.str branch) (kept_obj_cons (kept_nat hblock)
      (kept_obj_cons (kept_distance hdelta) kept_obj_nil))
  | changeReplication branch block replication =>
    have hblock := hpositions block List.mem_cons_self
    exact kept_obj_cons (.str branch) (kept_obj_cons (kept_nat hblock)
      (kept_obj_cons replication.kept_toJson kept_obj_nil))
  | setValue path property value =>
    exact kept_obj_cons (.str path) (kept_obj_cons (.str property)
      (kept_obj_cons value.kept_toJson kept_obj_nil))
  | beginBatch description =>
    exact kept_obj_cons (kept_ofOption fun text _ => .str text) kept_obj_nil
  | undo | redo | endBatch | abortBatch => exact kept_obj_nil

/-- An instruction is restored when it is read from the members after its name. -/
theorem restores_of_gives {name : String} {members : List (String × Json)}
    {instruction : Instruction} (hkept : (obj (("op", .str name) :: members)).Kept)
    (hop : members.filter (·.1 = "op") = [])
    (h : ∀ depth, (∀ member ∈ members, member.2.nesting ≤ depth) →
      Record.Gives (recordOf name depth) members instruction) :
    Instruction.decoder.Restores (.obj (("op", .str name) :: members)) instruction := by
  intro depth hroom
  have hothers : members.filter (·.1 ≠ "op") = members :=
    List.filter_eq_self.mpr fun member hmember => by
      simpa using List.filter_eq_nil_iff.mp hop member hmember
  have hmembers : (obj members).nesting ≤ depth := by
    obtain ⟨less, rfl, hmembers⟩ := exists_of_nesting_obj hroom
    exact nesting_obj_le.mpr fun member hmember => hmembers member (List.mem_cons_of_mem _ hmember)
  have hrecord := Decoder.restores_record h depth hmembers
  rw [decoder, if_pos (hkept.fits hroom), List.filter_cons_of_pos (by simp), hop,
    List.filter_cons_of_neg (by simp), hothers]
  exact hrecord

/-- An instruction of which all fits is restored from its form. -/
theorem restores {instruction : Instruction} (hwell : instruction.WellFormed)
    (hfits : instruction.Fits) :
    Instruction.decoder.Restores instruction.toJson instruction := by
  have hkept := kept_toJson hfits
  obtain ⟨hpositions, hdistances⟩ := hfits
  cases instruction with
  | insert path node | replace path node =>
    have hnode := hwell node (by simp [nodes])
    exact restores_of_gives hkept rfl fun _ hroom =>
      .bind (.required hroom rfl (Decoder.restores_text path))
        (.bind (.required hroom rfl (Node.restores true hnode)) .pure)
  | remove path | unassign path =>
    exact restores_of_gives hkept rfl fun _ hroom =>
      .bind (.required hroom rfl (Decoder.restores_text path)) .pure
  | move path delta =>
    obtain ⟨hlow, hhigh⟩ := hdistances delta List.mem_cons_self
    exact restores_of_gives hkept rfl fun _ hroom =>
      .bind (.required hroom rfl (Decoder.restores_text path))
        (.bind (.required hroom rfl (Decoder.restores_distance hlow hhigh)) .pure)
  | assign path node =>
    have hnode : ∀ item ∈ node, item.WellFormed := fun item hitem =>
      hwell item (by simpa [nodes] using hitem)
    exact restores_of_gives hkept rfl fun _ hroom =>
      .bind (.required hroom rfl (Decoder.restores_text path))
        (.bind (.defaulted hroom rfl (Node.restores_item true hnode)) .pure)
  | insertBlock branch block content =>
    have hblock := hpositions block List.mem_cons_self
    exact restores_of_gives hkept rfl fun _ hroom =>
      .bind (.required hroom rfl (Decoder.restores_text branch))
        (.bind (.required hroom rfl (Decoder.restores_position hblock))
          (.bind (.required hroom rfl (Block.restores_toJson true hwell)) .pure))
  | removeBlock branch block | mergeBlocks branch block =>
    have hblock := hpositions block List.mem_cons_self
    exact restores_of_gives hkept rfl fun _ hroom =>
      .bind (.required hroom rfl (Decoder.restores_text branch))
        (.bind (.required hroom rfl (Decoder.restores_position hblock)) .pure)
  | splitBlock branch block position =>
    have hblock := hpositions block List.mem_cons_self
    have hposition := hpositions position (List.mem_cons_of_mem _ List.mem_cons_self)
    exact restores_of_gives hkept rfl fun _ hroom =>
      .bind (.required hroom rfl (Decoder.restores_text branch))
        (.bind (.required hroom rfl (Decoder.restores_position hblock))
          (.bind (.required hroom rfl (Decoder.restores_position hposition)) .pure))
  | moveBlock branch block delta =>
    have hblock := hpositions block List.mem_cons_self
    obtain ⟨hlow, hhigh⟩ := hdistances delta List.mem_cons_self
    exact restores_of_gives hkept rfl fun _ hroom =>
      .bind (.required hroom rfl (Decoder.restores_text branch))
        (.bind (.required hroom rfl (Decoder.restores_position hblock))
          (.bind (.required hroom rfl (Decoder.restores_distance hlow hhigh)) .pure))
  | changeReplication branch block replication =>
    have hblock := hpositions block List.mem_cons_self
    exact restores_of_gives hkept rfl fun _ hroom =>
      .bind (.required hroom rfl (Decoder.restores_text branch))
        (.bind (.required hroom rfl (Decoder.restores_position hblock))
          (.bind (.required hroom rfl (replication.restores true)) .pure))
  | setValue path property value =>
    exact restores_of_gives hkept rfl fun _ hroom =>
      .bind (.required hroom rfl (Decoder.restores_text path))
        (.bind (.required hroom rfl (Decoder.restores_text property))
          (.bind (.required hroom rfl value.restores) .pure))
  | beginBatch description =>
    have htext : (Decoder.nullable Decoder.text).Restores (.ofOption (description.map .str))
        description :=
      Decoder.restores_nullable (fun _ _ => nofun) fun text _ => Decoder.restores_text text
    exact restores_of_gives hkept rfl fun _ hroom => .bind (.defaulted hroom rfl htext) .pure
  | undo | redo | endBatch | abortBatch => exact restores_of_gives hkept rfl fun _ _ => .pure

end Instruction

/-! ## Texts -/

/-- What is restored from a form of which all is kept is read from the text of the form. -/
theorem decodeText_of_restores {α : Type} {decode : Decoder α} {form : Json} {a : α}
    (h : decode.Restores form a) (hkept : form.Kept) (hroom : form.nesting ≤ depthLimit) :
    decodeText decode form.compact = some a := by
  rw [decodeText, parse_compact hkept, Option.bind_some, decodeValue, h depthLimit hroom]

/-- A node, an edit or an instruction whose text nests no deeper than a reader allows is read from
its text as it was written. -/
theorem decodeText_compact :
    (∀ node : Node, node.WellFormed → node.toJson.nesting ≤ 127 →
      decodeText (Node.decoder false) node.toJson.compact = some node) ∧
    (∀ edit : Edit, edit.WellFormed → edit.Fits → edit.toJson.nesting ≤ 127 →
      decodeText Edit.decoder edit.toJson.compact = some edit) ∧
    (∀ instruction : Instruction, instruction.WellFormed → instruction.Fits →
      instruction.toJson.nesting ≤ 127 →
      decodeText Instruction.decoder instruction.toJson.compact = some instruction) :=
  ⟨fun node hnode => decodeText_of_restores (Node.restores false hnode) node.kept_toJson,
    fun _ hedit hfits => decodeText_of_restores (Edit.restores hedit hfits)
      (Edit.kept_toJson hfits),
    fun _ hwell hfits => decodeText_of_restores (Instruction.restores hwell hfits)
      (Instruction.kept_toJson hfits)⟩

/-- A node with a text that looks like a number, and with an item that is retained only. -/
def retaining : Node :=
  .mk "Entry" [("size", .value (.text "12")),
    ("note", .optional false (some (.mk "Note" [("done", .value (.boolean true))])))]

/-- The node, an edit that moves it back by one and an instruction that assigns it are read as they
were written. -/
theorem decodeText_compact_retaining :
    decodeText (Node.decoder false) retaining.toJson.compact = some retaining ∧
      decodeText Edit.decoder (Edit.move ⟨[⟨"entries", .list 3⟩], "parts"⟩ (.member 1 4)
        (-1)).toJson.compact = some (.move ⟨[⟨"entries", .list 3⟩], "parts"⟩ (.member 1 4) (-1)) ∧
      decodeText Instruction.decoder
        (Instruction.assign "/entry?" (some retaining)).toJson.compact =
        some (.assign "/entry?" (some retaining)) := by
  obtain ⟨hnodes, hedits, hinstructions⟩ := decodeText_compact
  exact ⟨hnodes _ (by decide) (by decide), hedits _ (by decide) (by decide) (by decide),
    hinstructions _ (by decide) (by decide) (by decide)⟩

end TreeEditor
