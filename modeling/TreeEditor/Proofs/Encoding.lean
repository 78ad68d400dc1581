import TreeEditor.Node.Json
import TreeEditor.Proofs.JsonText
import TreeEditor.Proofs.Tree

/-!
# Reading back documents

A decoder restores a value from a form when it reads the value from it at every depth that leaves
room for the arrays and objects which the form nests (`Json.Decoder.Restores`). Records, choices,
lists and tables restore what they are made of, so a node is restored from its form by induction
over the document (`Node.restores`). All of the form stands in its text (`Node.kept_toJson`).

A record read from an object takes no member away: each of its fields finds the one member of its
name wherever it stands (`Json.Record.Gives`).
-/

namespace TreeEditor

namespace Json

/-! ## Depth -/

mutual

/-- How many arrays and objects a value nests. -/
def nesting : Json → Nat
  | .null | .bool _ | .int _ | .real | .str _ | .garbled => 0
  | .arr items => itemsNesting items + 1
  | .obj members => membersNesting members + 1

/-- How many arrays and objects the items of an array nest. -/
def itemsNesting : List Json → Nat
  | [] => 0
  | item :: items => max item.nesting (itemsNesting items)

/-- How many arrays and objects the values of members nest. -/
def membersNesting : List (String × Json) → Nat
  | [] => 0
  | (_, value) :: members => max value.nesting (membersNesting members)

end

variable {depth : Nat}

/-- An array nests one more than its items. -/
theorem nesting_arr_le {items : List Json} :
    (arr items).nesting ≤ depth + 1 ↔ ∀ item ∈ items, item.nesting ≤ depth := by
  rw [nesting, Nat.add_le_add_iff_right]
  induction items with
  | nil => simp [itemsNesting]
  | cons item items ih => rw [itemsNesting, max_le_iff, ih, List.forall_mem_cons]

/-- An object nests one more than the values of its members. -/
theorem nesting_obj_le {members : List (String × Json)} :
    (obj members).nesting ≤ depth + 1 ↔ ∀ member ∈ members, member.2.nesting ≤ depth := by
  rw [nesting, Nat.add_le_add_iff_right]
  induction members with
  | nil => simp [membersNesting]
  | cons member members ih => rw [membersNesting, max_le_iff, ih, List.forall_mem_cons]

/-- An array does not fit where nothing may be nested. -/
theorem exists_of_nesting_arr {items : List Json} (h : (arr items).nesting ≤ depth) :
    ∃ less, depth = less + 1 ∧ ∀ item ∈ items, item.nesting ≤ less := by
  cases depth with
  | zero => cases h
  | succ depth => exact ⟨depth, rfl, nesting_arr_le.mp h⟩

/-- An object does not fit where nothing may be nested. -/
theorem exists_of_nesting_obj {members : List (String × Json)} (h : (obj members).nesting ≤ depth) :
    ∃ less, depth = less + 1 ∧ ∀ member ∈ members, member.2.nesting ≤ less := by
  cases depth with
  | zero => cases h
  | succ depth => exact ⟨depth, rfl, nesting_obj_le.mp h⟩

/-- An item nests less than its array. -/
theorem nesting_lt_arr {items : List Json} {item : Json} (h : item ∈ items) :
    item.nesting < (arr items).nesting := by
  obtain ⟨less, heq, hitems⟩ := exists_of_nesting_arr (Nat.le_refl (arr items).nesting)
  rw [heq]
  exact Nat.lt_succ_of_le (hitems item h)

/-- The value of a member nests less than its object. -/
theorem nesting_lt_obj {members : List (String × Json)} (name : String) {value : Json}
    (h : (name, value) ∈ members) : value.nesting < (obj members).nesting := by
  obtain ⟨less, heq, hmembers⟩ := exists_of_nesting_obj (Nat.le_refl (obj members).nesting)
  rw [heq]
  exact Nat.lt_succ_of_le (hmembers (name, value) h)

/-- Items fit when each of them does. -/
theorem fitsAll_iff {items : List Json} :
    fitsAll depth items = true ↔ ∀ item ∈ items, item.fits depth = true := by
  induction items with
  | nil => simp [fitsAll]
  | cons item items ih => rw [fitsAll, Bool.and_eq_true, ih, List.forall_mem_cons]

/-- Members fit when each of their values does. -/
theorem fitsMembers_iff {members : List (String × Json)} :
    fitsMembers depth members = true ↔ ∀ member ∈ members, member.2.fits depth = true := by
  induction members with
  | nil => simp [fitsMembers]
  | cons member members ih => rw [fitsMembers, Bool.and_eq_true, ih, List.forall_mem_cons]

/-- A value of which all is kept fits where there is room for what it nests. -/
theorem Kept.fits {value : Json} (h : value.Kept) (hroom : value.nesting ≤ depth) :
    value.fits depth = true := by
  induction h generalizing depth with
  | null | bool | int | str => cases depth <;> rfl
  | arr _ ih =>
    obtain ⟨depth, rfl, hitems⟩ := exists_of_nesting_arr hroom
    exact fitsAll_iff.mpr fun item hitem => ih item hitem (hitems item hitem)
  | obj _ ih =>
    obtain ⟨depth, rfl, hmembers⟩ := exists_of_nesting_obj hroom
    exact fitsMembers_iff.mpr fun member hmember => ih member hmember (hmembers member hmember)

/-! ## Decoders -/

variable {α β : Type}

/-- A decoder reads a value from a form wherever there is room for what the form nests. -/
def Decoder.Restores (decode : Decoder α) (form : Json) (a : α) : Prop :=
  ∀ depth, form.nesting ≤ depth → decode depth form = some a

/-- A part of a record is read from the members of an object, of which none is taken away. -/
def Record.Gives (record : Record α) (members : List (String × Json)) (a : α) : Prop :=
  record (.named members) = some (a, .named members)

namespace Record.Gives

variable {members : List (String × Json)} {name : String} {value : Json} {a : α} {b : β}

/-- A record of nothing is read from any object. -/
theorem pure : Gives (Pure.pure a) members a := rfl

/-- Two parts of a record are read one after the other from the same object. -/
theorem bind {first : Record α} {next : α → Record β} (hfirst : Gives first members a)
    (hnext : Gives (next a) members b) : Gives (first >>= next) members b := by
  change andThen first next (.named members) = _
  rw [Gives] at hfirst hnext
  rw [andThen, hfirst]
  exact hnext

/-- The only member of a name is what is given for the field. -/
theorem given_of_filter (hmember : members.filter (·.1 = name) = [(name, value)]) :
    given name (.named members) = some (some value, .named members) := by
  rw [given, hmember]

/-- A member of a name has the room that is left for all members. -/
theorem nesting_of_filter (hroom : ∀ member ∈ members, member.2.nesting ≤ depth)
    (hmember : members.filter (·.1 = name) = [(name, value)]) : value.nesting ≤ depth := by
  have hmem : (name, value) ∈ members.filter (·.1 = name) := by
    rw [hmember]
    exact List.mem_singleton_self _
  exact hroom _ (List.mem_filter.mp hmem).1

variable {decode : Decoder α} (hroom : ∀ member ∈ members, member.2.nesting ≤ depth)
include hroom

/-- A field is read from the member of its name. -/
theorem required (hmember : members.filter (·.1 = name) = [(name, value)])
    (h : decode.Restores value a) : Gives (.required name (decode depth)) members a := by
  rw [Gives, Record.required, given_of_filter hmember]
  change (decode depth value >>= fun a => some (a, Fields.named members)) = _
  rw [h depth (nesting_of_filter hroom hmember)]
  rfl

/-- A field with a default is read from the member of its name. -/
theorem defaulted {default : α} (hmember : members.filter (·.1 = name) = [(name, value)])
    (h : decode.Restores value a) :
    Gives (.defaulted name default (decode depth)) members a := by
  rw [Gives, Record.defaulted, given_of_filter hmember]
  change (decode depth value >>= fun a => some (a, Fields.named members)) = _
  rw [h depth (nesting_of_filter hroom hmember)]
  rfl

omit hroom in
/-- A field with a default has it when no member is of its name. -/
theorem absent {default : α} (hmember : members.filter (·.1 = name) = []) :
    Gives (.defaulted name default (decode depth)) members default := by
  rw [Gives, Record.defaulted, given, hmember]
  rfl

/-- A field that may be left off is read from the member of its name. -/
theorem omittable {decode : Decoder (Option α)} {item : Option α}
    (hmember : members.filter (·.1 = name) = [(name, value)]) (h : decode.Restores value item) :
    Gives (.omittable name (decode depth)) members item := by
  rw [Gives, Record.omittable, given_of_filter hmember]
  change (decode depth value >>= fun item => some (item, Fields.named members)) = _
  rw [h depth (nesting_of_filter hroom hmember)]
  rfl

end Record.Gives

namespace Decoder

/-- A truth value is restored. -/
theorem restores_bool (b : Bool) : Decoder.bool.Restores (.bool b) b := fun _ _ => rfl

/-- A text is restored. -/
theorem restores_text (s : String) : text.Restores (.str s) s := fun _ _ => rfl

/-- A position is restored. -/
theorem restores_position {n : Nat} (h : n < Text.positionBound) :
    position.Restores (.nat n) n := by
  intro _ _
  have hbound : 0 ≤ (n : Int) ∧ (n : Int) < Text.positionBound := ⟨by omega, by omega⟩
  rw [nat, position, if_pos hbound, Int.toNat_natCast]

/-- A signed distance is restored. -/
theorem restores_distance {n : Int} (low : -signedBound ≤ n) (high : n < signedBound) :
    distance.Restores (.int n) n := by
  intro _ _
  rw [distance, if_pos ⟨low, high⟩]

/-- What may be absent is restored, `null` standing for its absence alone. -/
theorem restores_nullable {decode : Decoder α} {form : α → Json} {item : Option α}
    (hnull : ∀ a ∈ item, form a ≠ .null) (h : ∀ a ∈ item, decode.Restores (form a) a) :
    (nullable decode).Restores (.ofOption (item.map form)) item := by
  intro depth hroom
  cases item with
  | none => rfl
  | some a =>
    rw [Option.map_some, ofOption, Option.getD_some] at hroom ⊢
    rw [nullable, h a rfl depth hroom, Option.map_some]
    exact hnull a rfl

/-- Items that are restored one by one are restored together. -/
theorem mapM_map {decode : β → Option α} {form : α → β} {items : List α}
    (h : ∀ a ∈ items, decode (form a) = some a) : (items.map form).mapM decode = some items := by
  induction items with
  | nil => rfl
  | cons a items ih =>
    rw [List.forall_mem_cons] at h
    rw [List.map_cons, List.mapM_cons, h.1, ih h.2]
    rfl

/-- A list is restored when its items are. -/
theorem restores_list {decode : Decoder α} {form : α → Json} {items : List α}
    (h : ∀ a ∈ items, decode.Restores (form a) a) :
    (list decode).Restores (.arr (items.map form)) items := by
  intro depth hroom
  obtain ⟨depth, rfl, hitems⟩ := exists_of_nesting_arr hroom
  rw [list]
  exact mapM_map fun a ha => h a ha depth (hitems _ (List.mem_map_of_mem ha))

/-- A table is restored when its values are. -/
theorem restores_table {decode : Decoder α} {form : α → Json} {entries : List (String × α)}
    (hkeys : (Table.keys entries).Nodup)
    (h : ∀ entry ∈ entries, decode.Restores (form entry.2) entry.2) :
    (table decode).Restores (.obj (entries.map fun entry => (entry.1, form entry.2))) entries := by
  intro depth hroom
  obtain ⟨depth, rfl, hmembers⟩ := exists_of_nesting_obj hroom
  have hentries : (entries.map fun entry => (entry.1, form entry.2)).mapM
      (fun member => (decode depth member.2).map (member.1, ·)) = some entries :=
    mapM_map fun entry hentry => by
      rw [h entry hentry depth (hmembers _ (List.mem_map_of_mem hentry))]
      rfl
  rw [table, hentries, Option.map_some, Table.ofList_eq_self hkeys]

/-- A record is restored when it is read from its members. -/
theorem restores_record {body : Nat → Record α} {members : List (String × Json)} {a : α}
    (h : ∀ depth, (∀ member ∈ members, member.2.nesting ≤ depth) →
      Record.Gives (body depth) members a) : (Decoder.record body).Restores (.obj members) a := by
  intro depth hroom
  obtain ⟨depth, rfl, hmembers⟩ := exists_of_nesting_obj hroom
  have hgives := h depth hmembers
  rw [Record.Gives] at hgives
  rw [record, hgives]
  rfl

/-- An alternative with content is restored when it is read from its content. -/
theorem restores_choice {alternative : Nat → String → Option Json → Option α} {name : String}
    {content : Json} {a : α}
    (h : ∀ depth, content.nesting ≤ depth → alternative depth name (some content) = some a) :
    (choice alternative).Restores (.obj [(name, content)]) a := by
  intro depth hroom
  obtain ⟨depth, rfl, hmembers⟩ := exists_of_nesting_obj hroom
  exact h depth (hmembers _ (List.mem_singleton_self _))

/-- An alternative without content is restored from its name. -/
theorem restores_name {alternative : Nat → String → Option Json → Option α} {name : String}
    {a : α} (h : ∀ depth, alternative depth name none = some a) :
    (choice alternative).Restores (.str name) a := by
  intro depth _
  cases depth <;> exact h _

end Decoder

end Json

/-! ## Documents -/

open Json

/-- A leaf is restored: what a text looks like does not matter. -/
theorem Leaf.restores (leaf : Leaf) : Leaf.decoder.Restores leaf.toJson leaf := by
  intro depth hroom
  cases leaf with
  | boolean value => rfl
  | integer value =>
    have hread := Decoder.restores_distance (n := value.toInt) value.le_toInt value.toInt_lt
      depth hroom
    rw [toJson, decoder, hread, Option.map_some, Function.comp_apply, Int64.ofInt_toInt]
  | text value => rfl

/-- A replication status is restored. -/
theorem Replication.restores (lenient : Bool) (replication : Replication) :
    (Replication.decoder lenient).Restores replication.toJson replication := by
  cases replication <;> exact Decoder.restores_name fun _ => rfl

section Children

variable {α : Type} {form : α → Json} {child : Decoder α} (lenient : Bool)

/-- A header is read from its fields, before which no others stand and after which only nodes do. -/
theorem Header.gives {header : Header α} {members : List (String × Json)} {depth : Nat}
    (hroom : ∀ member ∈ header.fields form ++ members, member.2.nesting ≤ depth)
    (hnames : ∀ member ∈ members, member.1 = "nodes")
    (hpattern : child.Restores (form header.pattern) header.pattern)
    (hsource : child.Restores (form header.source) header.source) :
    Record.Gives (Header.recordOf lenient child depth) (header.fields form ++ members) header := by
  have hother (name : String) (hname : name ≠ "nodes") :
      members.filter (·.1 = name) = [] :=
    List.filter_eq_nil_iff.mpr fun member hmember => by
      rw [hnames member hmember]
      simpa using Ne.symm hname
  refine .bind (.defaulted hroom ?_ (Replication.restores lenient _))
    (.bind (.required hroom ?_ hpattern) (.bind (.required hroom ?_ hsource) .pure))
  all_goals
    rw [List.filter_append, hother _ (by decide)]
    rfl

/-- A block is restored with its nodes. -/
theorem Block.restores {block : Block α α}
    (hpattern : child.Restores (form block.header.pattern) block.header.pattern)
    (hsource : child.Restores (form block.header.source) block.header.source)
    (hmembers : ∀ node ∈ block.members, child.Restores (form node) node) :
    (Block.decoderOf lenient child).Restores (block.encode form) block :=
  Decoder.restores_record fun _ hroom =>
    .bind (Header.gives lenient hroom (by simp) hpattern hsource)
      (.bind (.required hroom rfl (Decoder.restores_list hmembers)) .pure)

/-- An optional child is restored, retained or not. -/
theorem restores_optional (assigned : Bool) {item : Option α} (hnull : ∀ node, form node ≠ .null)
    (h : ∀ node ∈ item, child.Restores (form node) node) :
    (decodeOptional child).Restores (encodeOptional form assigned item) (assigned, item) := by
  refine Decoder.restores_record fun depth hroom => ?_
  cases item with
  | none =>
    exact .bind (.defaulted hroom rfl (Decoder.restores_bool assigned)) (.bind (.absent rfl) .pure)
  | some node =>
    have hitem := Decoder.restores_nullable (fun node _ => hnull node) h
    exact .bind (.defaulted hroom rfl (Decoder.restores_bool assigned))
      (.bind (.defaulted hroom rfl hitem) .pure)

/-- A property is restored with the nodes under it. -/
theorem Property.restores {property : Property α} (hnull : ∀ node, form node ≠ .null)
    (h : ∀ node ∈ property.nodes, child.Restores (form node) node) :
    (Property.decoderOf lenient child).Restores (property.encode form) property := by
  cases property with
  | value leaf =>
    refine Decoder.restores_choice fun depth hroom => ?_
    change (Leaf.decoder depth leaf.toJson).map Property.value = _
    rw [leaf.restores depth hroom, Option.map_some]
  | child node =>
    refine Decoder.restores_choice fun depth hroom => ?_
    change (child depth (form node)).map Property.child = _
    rw [h node (List.mem_singleton_self node) depth hroom, Option.map_some]
  | optional assigned item =>
    have hitem := restores_optional assigned hnull fun node hnode =>
      h node (Option.mem_toList.mpr hnode)
    refine Decoder.restores_choice fun depth hroom => ?_
    change (decodeOptional child depth _).map _ = _
    rw [hitem depth hroom, Option.map_some]
  | list nodes =>
    have hnodes : ∀ node ∈ nodes, child.Restores (form node) node := h
    refine Decoder.restores_choice fun depth hroom => ?_
    change (Decoder.list child depth _).map Property.list = _
    rw [Decoder.restores_list hnodes depth hroom, Option.map_some]
  | blockList blocks =>
    -- The header of a block has nodes too, which are read like the members.
    have hblock : ∀ block ∈ blocks,
        (Block.decoderOf lenient child).Restores (block.encode form) block := by
      intro block hblock
      have hnodes : ∀ node ∈ block.header.pattern :: block.header.source :: block.members,
          child.Restores (form node) node := fun node hnode =>
        h node (List.mem_flatMap.mpr ⟨block, hblock, hnode⟩)
      simp only [List.forall_mem_cons] at hnodes
      exact Block.restores lenient hnodes.1 hnodes.2.1 hnodes.2.2
    refine Decoder.restores_choice fun depth hroom => ?_
    change (Decoder.list (Block.decoderOf lenient child) depth _).map Property.blockList = _
    rw [Decoder.restores_list hblock depth hroom, Option.map_some]

end Children

/-- The form of a property whose children are replaced is made of the forms of the new ones. -/
theorem Property.encode_map {α β : Type} (f : α → β) (form : β → Json) (property : Property α) :
    (property.map f).encode form = property.encode (form ∘ f) := by
  cases property with
  | value leaf => rfl
  | child node => rfl
  | optional assigned item => cases item <;> rfl
  | list nodes => simp only [map, encode, List.map_map]
  | blockList blocks =>
    simp only [map, encode, List.map_map]
    have hblock : Block.encode form ∘ Block.map f = Block.encode (form ∘ f) := by
      funext block
      simp [Block.encode, Block.map, Header.map, Header.fields]
    rw [hblock]

/-- A node under a block nests less than the block. -/
theorem Block.nesting_lt {α : Type} {form : α → Json} {block : Block α α} {node : α}
    (hnode : node ∈ block.header.pattern :: block.header.source :: block.members) :
    (form node).nesting < (block.encode form).nesting := by
  rcases List.mem_cons.mp hnode with rfl | hnode
  · exact nesting_lt_obj "pattern" (by simp [Header.fields])
  rcases List.mem_cons.mp hnode with rfl | hnode
  · exact nesting_lt_obj "source" (by simp [Header.fields])
  · refine (nesting_lt_arr (List.mem_map_of_mem hnode)).trans ?_
    exact nesting_lt_obj "nodes" (by simp)

/-- A node under a property nests less than the property. -/
theorem Property.nesting_lt {α : Type} {form : α → Json} {property : Property α} {node : α}
    (hnode : node ∈ property.nodes) : (form node).nesting < (property.encode form).nesting := by
  cases property with
  | value leaf => cases hnode
  | child held =>
    obtain rfl : node = held := List.mem_singleton.mp hnode
    exact nesting_lt_obj "child" (List.mem_singleton_self _)
  | optional assigned item =>
    obtain rfl : item = some node := Option.mem_toList.mp hnode
    refine lt_trans ?_ (nesting_lt_obj "optional" (List.mem_singleton_self _))
    exact nesting_lt_obj "item" (by simp)
  | list nodes =>
    refine lt_trans ?_ (nesting_lt_obj "list" (List.mem_singleton_self _))
    exact nesting_lt_arr (List.mem_map_of_mem hnode)
  | blockList blocks =>
    obtain ⟨block, hblock, hnode⟩ := List.mem_flatMap.mp hnode
    refine lt_trans ?_ (nesting_lt_obj "blockList" (List.mem_singleton_self _))
    exact (Block.nesting_lt hnode).trans (nesting_lt_arr (List.mem_map_of_mem hblock))

/-- All of an object is kept when all of its first value and of the other members is. -/
theorem kept_obj_cons {name : String} {value : Json} {members : List (String × Json)}
    (h : value.Kept) (hmembers : (obj members).Kept) : (obj ((name, value) :: members)).Kept := by
  cases hmembers with
  | obj hmembers => exact .obj (List.forall_mem_cons.mpr ⟨h, hmembers⟩)

/-- All of the empty object is kept. -/
theorem kept_obj_nil : (obj []).Kept := .obj nofun

/-- All of what may be absent is kept. -/
theorem kept_ofOption {α : Type} {form : α → Json} {item : Option α}
    (h : ∀ a ∈ item, (form a).Kept) : (ofOption (item.map form)).Kept := by
  cases item with
  | none => exact .null
  | some a => exact h a rfl

/-- All of the form of a leaf is kept. -/
theorem Leaf.kept_toJson (leaf : Leaf) : leaf.toJson.Kept := by
  cases leaf with
  | boolean value => exact .bool value
  | integer value =>
    have hlow := value.le_toInt
    have hhigh := value.toInt_lt
    exact .int hlow (by omega)
  | text value => exact .str value

/-- All of the form of a replication status is kept. -/
theorem Replication.kept_toJson (replication : Replication) : replication.toJson.Kept := by
  cases replication <;> exact .str _

/-- All of the fields of a header is kept when its nodes are. -/
theorem Header.kept_fields {α : Type} {form : α → Json} {header : Header α}
    {members : List (String × Json)} (hpattern : (form header.pattern).Kept)
    (hsource : (form header.source).Kept) (hmembers : (obj members).Kept) :
    (obj (header.fields form ++ members)).Kept :=
  kept_obj_cons header.replication.kept_toJson
    (kept_obj_cons hpattern (kept_obj_cons hsource hmembers))

/-- All of a list of forms is kept when each is. -/
theorem kept_list {α : Type} {form : α → Json} {items : List α}
    (h : ∀ item ∈ items, (form item).Kept) : (arr (items.map form)).Kept :=
  .arr fun _ hitem => by
    obtain ⟨item, hmem, rfl⟩ := List.mem_map.mp hitem
    exact h item hmem

/-- All of the form of a block is kept when its nodes are. -/
theorem Block.kept_encode {α : Type} {form : α → Json} {block : Block α α}
    (h : ∀ node ∈ block.header.pattern :: block.header.source :: block.members,
      (form node).Kept) : (block.encode form).Kept := by
  simp only [List.forall_mem_cons] at h
  exact Header.kept_fields h.1 h.2.1 (kept_obj_cons (kept_list h.2.2) kept_obj_nil)

/-- All of the form of a property is kept when its nodes are. -/
theorem Property.kept_encode {α : Type} {form : α → Json} {property : Property α}
    (h : ∀ node ∈ property.nodes, (form node).Kept) : (property.encode form).Kept := by
  cases property with
  | value leaf => exact kept_obj_cons leaf.kept_toJson kept_obj_nil
  | child node => exact kept_obj_cons (h node (List.mem_singleton_self node)) kept_obj_nil
  | optional assigned item =>
    refine kept_obj_cons (kept_obj_cons (.bool assigned) ?_) kept_obj_nil
    cases item with
    | none => exact kept_obj_nil
    | some node => exact kept_obj_cons (h node (List.mem_singleton_self node)) kept_obj_nil
  | list nodes => exact kept_obj_cons (kept_list h) kept_obj_nil
  | blockList blocks =>
    refine kept_obj_cons (kept_list fun block hblock => Block.kept_encode fun node hnode => ?_)
      kept_obj_nil
    exact h node (List.mem_flatMap.mpr ⟨block, hblock, hnode⟩)

namespace Node

/-- The members of the form of a node. -/
theorem toJson_mk (kind : String) (properties : List (String × Property Node)) :
    (mk kind properties).toJson = .obj (("kind", .str kind) ::
      if properties.isEmpty then []
      else [("properties", .obj (properties.map fun entry => (entry.1, entry.2.toJson)))]) := by
  have hforms (f : String → List (String × Property (Node × Json)) → Json) :
      (properties.map fun entry => (entry.1, entry.2.map (withResult f))).map
        (fun entry => (entry.1, entry.2.encode Prod.snd)) =
      properties.map fun entry => (entry.1, entry.2.encode (fold f)) := by
    rw [List.map_map]
    refine List.map_congr_left fun entry _ => ?_
    rw [Function.comp_apply, Property.encode_map]
    rfl
  rw [toJson, fold_mk, hforms, List.isEmpty_map]
  rfl

/-- The form of a node is an object. -/
theorem toJson_ne_null (node : Node) : node.toJson ≠ .null := by
  obtain ⟨kind, properties⟩ := node
  rw [toJson_mk]
  exact nofun

/-- A node under a property of a node nests less than the node. -/
theorem nesting_lt {node child : Node} {entry : String × Property Node}
    (hentry : entry ∈ node.properties) (hchild : child ∈ entry.2.nodes) :
    child.toJson.nesting + 1 < node.toJson.nesting := by
  obtain ⟨kind, properties⟩ := node
  rw [properties_mk] at hentry
  have hproperties : (obj (properties.map fun entry => (entry.1, entry.2.toJson))).nesting <
      (mk kind properties).toJson.nesting := by
    rw [toJson_mk, if_neg (by simpa using List.ne_nil_of_mem hentry)]
    exact nesting_lt_obj "properties" (by simp)
  have hentry : entry.2.toJson.nesting <
      (obj (properties.map fun entry => (entry.1, entry.2.toJson))).nesting :=
    nesting_lt_obj entry.1 (List.mem_map_of_mem hentry)
  have hchild : child.toJson.nesting < entry.2.toJson.nesting := Property.nesting_lt hchild
  omega

/-- A well-formed node is restored by a decoder of as many generations as its form nests. -/
theorem restores_within (lenient : Bool) {node : Node} (h : node.WellFormed) {generations : Nat}
    (hroom : node.toJson.nesting ≤ generations) :
    (decodeWithin lenient generations).Restores node.toJson node := by
  -- By induction on the node: the nodes below it nest less deeply, so one generation less is
  -- enough.
  induction node using induct generalizing generations with
  | step node ih =>
    obtain ⟨kind, properties⟩ := node
    cases generations with
    | zero =>
      rw [toJson_mk] at hroom
      cases hroom
    | succ generations =>
      have hproperty : ∀ entry ∈ properties,
          (Property.decoderOf lenient (decodeWithin lenient generations)).Restores
            entry.2.toJson entry.2 := by
        refine fun entry hentry => Property.restores lenient toJson_ne_null fun child hchild => ?_
        have hlt : child.toJson.nesting + 1 < (mk kind properties).toJson.nesting :=
          nesting_lt hentry hchild
        exact ih entry hentry child hchild (h.child hentry hchild) (by omega)
      rw [toJson_mk]
      refine Decoder.restores_record fun depth hroom => ?_
      cases properties with
      | nil =>
        exact .bind (.required hroom rfl (Decoder.restores_text kind))
          (.bind (.absent rfl) .pure)
      | cons entry properties =>
        exact .bind (.required hroom rfl (Decoder.restores_text kind))
          (.bind (.defaulted hroom rfl (Decoder.restores_table h.keys hproperty)) .pure)

/-- A well-formed node is restored from its form. -/
theorem restores (lenient : Bool) {node : Node} (h : node.WellFormed) :
    (decoder lenient).Restores node.toJson node := fun depth hroom =>
  restores_within lenient h hroom depth hroom

/-- All of the form of a node is kept in its text. -/
theorem kept_toJson (node : Node) : node.toJson.Kept := by
  induction node using induct with
  | step node ih =>
    obtain ⟨kind, properties⟩ := node
    have hproperties : (obj (properties.map fun entry => (entry.1, entry.2.toJson))).Kept :=
      .obj fun _ hmember => by
        obtain ⟨entry, hentry, rfl⟩ := List.mem_map.mp hmember
        exact Property.kept_encode (ih entry hentry)
    rw [toJson_mk]
    refine kept_obj_cons (.str kind) ?_
    split_ifs
    · exact kept_obj_nil
    · exact kept_obj_cons hproperties kept_obj_nil

end Node

end TreeEditor
