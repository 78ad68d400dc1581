import TreeEditor.CommandLine
import TreeEditor.Proofs.Forms

/-!
# What is read is well-formed

Whatever form a decoder is given, what it yields meets the conditions that hold by construction
(`Json.Decoder.Yields`): a table has every key once, so a node that is read is well-formed
(`Node.yields_wellFormed`), and so is all that an instruction of a script brings along
(`Instruction.yields_wellFormed`).
-/

namespace TreeEditor

namespace Json

variable {α β : Type}

/-- Whatever a decoder reads meets a condition. -/
def Decoder.Yields (decode : Decoder α) (p : α → Prop) : Prop :=
  ∀ depth value a, decode depth value = some a → p a

/-- Whatever is read of a part of a record meets a condition. -/
def Record.Yields (record : Record α) (p : α → Prop) : Prop :=
  ∀ fields a left, record fields = some (a, left) → p a

namespace Record.Yields

variable {p : α → Prop} {q : β → Prop} {name : String}

/-- A record of nothing yields what it is given. -/
theorem pure {a : α} (h : p a) : Yields (Pure.pure a) p := by
  rintro _ _ _ ⟨⟩
  exact h

/-- What is yielded by the second part of a record may depend on what the first one yields. -/
theorem bind {first : Record α} {next : α → Record β} (hfirst : Yields first p)
    (hnext : ∀ a, p a → Yields (next a) q) : Yields (first >>= next) q := by
  intro fields b left h
  change andThen first next fields = _ at h
  rw [andThen] at h
  obtain ⟨⟨a, rest⟩, hread, hrest⟩ := Option.bind_eq_some_iff.mp h
  exact hnext a (hfirst fields a rest hread) rest b left hrest

/-- Of the first part of a record nothing need be known. -/
theorem after {first : Record α} {next : α → Record β} (hnext : ∀ a, Yields (next a) q) :
    Yields (first >>= next) q :=
  bind (p := fun _ => True) (fun _ _ _ _ => trivial) fun a _ => hnext a

/-- A field yields what its decoder does. -/
theorem required {decode : Decoder α} (h : decode.Yields p) {depth : Nat} :
    Yields (.required name (decode depth)) p := by
  intro fields a left hread
  rw [Record.required] at hread
  obtain ⟨⟨value, rest⟩, -, hread⟩ := Option.bind_eq_some_iff.mp hread
  obtain ⟨value, -, hread⟩ := Option.bind_eq_some_iff.mp hread
  obtain ⟨found, hfound, hread⟩ := Option.bind_eq_some_iff.mp hread
  cases hread
  exact h depth value a hfound

/-- A field with a default yields the default or what its decoder does. -/
theorem defaulted {default : α} {decode : Decoder α} (hdefault : p default) (h : decode.Yields p)
    {depth : Nat} : Yields (.defaulted name default (decode depth)) p := by
  intro fields a left hread
  rw [Record.defaulted] at hread
  obtain ⟨⟨value, rest⟩, -, hread⟩ := Option.bind_eq_some_iff.mp hread
  cases value with
  | none => cases hread; exact hdefault
  | some value =>
    obtain ⟨found, hfound, hread⟩ := Option.bind_eq_some_iff.mp hread
    cases hread
    exact h depth value a hfound

end Record.Yields

namespace Decoder

variable {p : α → Prop} {decode : Decoder α}

/-- A record yields what its parts do. -/
theorem yields_record {body : Nat → Record α} (h : ∀ depth, (body depth).Yields p) :
    (Decoder.record body).Yields p := by
  intro depth value a hread
  unfold record at hread
  split at hread
  · obtain ⟨⟨found, left⟩, hbody, rfl⟩ := Option.map_eq_some_iff.mp hread
    exact h _ _ _ _ hbody
  · split at hread
    · rename_i hbody
      cases hread
      exact h _ _ _ _ hbody
    · cases hread
  · cases hread

/-- A choice yields what its alternatives do. -/
theorem yields_choice {alternative : Nat → String → Option Json → Option α}
    (h : ∀ depth name content a, alternative depth name content = some a → p a) :
    (choice alternative).Yields p := by
  intro depth value a hread
  unfold choice at hread
  split at hread
  · exact h _ _ _ _ hread
  · exact h _ _ _ _ hread
  · cases hread

/-- Items that are read one by one all meet the condition. -/
theorem of_mapM {read : β → Option α} (h : ∀ b a, read b = some a → p a) {bs : List β}
    {as : List α} (hread : bs.mapM read = some as) : ∀ a ∈ as, p a := by
  induction bs generalizing as with
  | nil => cases hread; exact nofun
  | cons b bs ih =>
    rw [List.mapM_cons] at hread
    obtain ⟨a, hfirst, hread⟩ := Option.bind_eq_some_iff.mp hread
    obtain ⟨rest, hrest, hread⟩ := Option.bind_eq_some_iff.mp hread
    cases hread
    exact List.forall_mem_cons.mpr ⟨h b a hfirst, ih hrest⟩

/-- A list yields items that its decoder yields. -/
theorem yields_list (h : decode.Yields p) : (list decode).Yields fun items => ∀ a ∈ items, p a := by
  intro depth value items hread
  unfold list at hread
  split at hread
  · exact of_mapM (h _) hread
  · cases hread

/-- A table has different keys and values that its decoder yields. -/
theorem yields_table (h : decode.Yields p) :
    (table decode).Yields fun entries =>
      (Table.keys entries).Nodup ∧ ∀ entry ∈ entries, p entry.2 := by
  intro depth value entries hread
  unfold table at hread
  split at hread
  · obtain ⟨listed, hlisted, rfl⟩ := Option.map_eq_some_iff.mp hread
    have hvalues : ∀ entry ∈ listed, p entry.2 := of_mapM (p := fun entry => p entry.2)
      (fun member entry hentry => by
        obtain ⟨found, hfound, rfl⟩ := Option.map_eq_some_iff.mp hentry
        exact h _ _ _ hfound) hlisted
    have hnil : (Table.keys ([] : List (String × α))).Nodup := List.nodup_nil
    obtain ⟨hnodup, hmem⟩ := Table.foldl_set listed hnil
    exact ⟨hnodup, fun entry hentry => hvalues entry ((hmem entry hentry).resolve_left nofun)⟩
  · cases hread

/-- What may be absent is what its decoder yields where it is there. -/
theorem yields_nullable (h : decode.Yields p) :
    (nullable decode).Yields fun item => ∀ a ∈ item, p a := by
  intro depth value item hread
  unfold nullable at hread
  split at hread
  · cases hread; exact nofun
  · obtain ⟨found, hfound, rfl⟩ := Option.map_eq_some_iff.mp hread
    rintro a ⟨⟩
    exact h _ _ _ hfound

end Decoder

end Json

open Json

/-! ## Documents -/

section Children

variable {α : Type} {p : α → Prop} {child : Decoder α} (lenient : Bool)

/-- The nodes of a header are nodes that are read. -/
theorem Header.yields (h : child.Yields p) (depth : Nat) :
    (Header.recordOf lenient child depth).Yields fun header => p header.pattern ∧ p header.source :=
  .after fun _ => .bind (.required h) fun _ hpattern => .bind (.required h) fun _ hsource =>
    .pure ⟨hpattern, hsource⟩

/-- The nodes of a block are nodes that are read. -/
theorem Block.yields (h : child.Yields p) :
    (Block.decoderOf lenient child).Yields fun block =>
      ∀ node ∈ block.header.pattern :: block.header.source :: block.members, p node :=
  Decoder.yields_record fun depth => .bind (Header.yields lenient h depth) fun _ hheader =>
    .bind (.required (Decoder.yields_list h)) fun _ hmembers => .pure <| by
      simp only [List.forall_mem_cons]
      exact ⟨hheader.1, hheader.2, hmembers⟩

/-- The nodes under a property are nodes that are read. -/
theorem Property.yields (h : child.Yields p) :
    (Property.decoderOf lenient child).Yields fun property => ∀ node ∈ property.nodes, p node := by
  refine Decoder.yields_choice fun depth name content property hread => ?_
  obtain ⟨content, -, hread⟩ := Option.bind_eq_some_iff.mp hread
  split at hread
  · obtain ⟨leaf, -, rfl⟩ := Option.map_eq_some_iff.mp hread
    exact nofun
  · obtain ⟨node, hnode, rfl⟩ := Option.map_eq_some_iff.mp hread
    exact List.forall_mem_singleton.mpr (h _ _ _ hnode)
  · obtain ⟨⟨assigned, item⟩, hitem, rfl⟩ := Option.map_eq_some_iff.mp hread
    have hoptional : (decodeOptional child).Yields fun found => ∀ node ∈ found.2, p node :=
      Decoder.yields_record fun _ => .after fun _ =>
        .bind (.defaulted nofun (Decoder.yields_nullable h)) fun _ hitem => .pure hitem
    exact fun node hnode => hoptional _ _ _ hitem node (Option.mem_toList.mp hnode)
  · obtain ⟨nodes, hnodes, rfl⟩ := Option.map_eq_some_iff.mp hread
    exact Decoder.yields_list h _ _ _ hnodes
  · obtain ⟨blocks, hblocks, rfl⟩ := Option.map_eq_some_iff.mp hread
    intro node hnode
    obtain ⟨block, hblock, hnode⟩ := List.mem_flatMap.mp hnode
    exact Decoder.yields_list (Block.yields lenient h) _ _ _ hblocks block hblock node hnode
  · cases hread

end Children

namespace Node

/-- A node that is read is well-formed, however few generations it may have. -/
theorem yields_within (lenient : Bool) (generations : Nat) :
    (decodeWithin lenient generations).Yields WellFormed := by
  induction generations with
  | zero => exact fun _ _ _ hread => by cases hread
  | succ generations ih =>
    refine Decoder.yields_record fun _ => .after fun kind => .bind
      (.defaulted ⟨List.nodup_nil, nofun⟩ (Decoder.yields_table (Property.yields lenient ih)))
      fun properties hproperties => .pure ?_
    exact .intro hproperties.1 hproperties.2

/-- A node that is read is well-formed. -/
theorem yields_wellFormed (lenient : Bool) : (decoder lenient).Yields WellFormed :=
  fun depth => yields_within lenient depth depth

end Node

/-! ## Scripts -/

namespace Instruction

/-- All that the record of an instruction brings along is well-formed. -/
theorem yields_recordOf (name : String) (depth : Nat) :
    (recordOf name depth).Yields WellFormed := by
  have hnode := Node.yields_wellFormed true
  -- The nodes of a record are well-formed because the decoders of nodes yield no others; the
  -- records without nodes have nothing to show.
  unfold recordOf
  split
  · exact .after fun _ => .bind (.required hnode) fun node h =>
      .pure (List.forall_mem_singleton.mpr h)
  · exact .after fun _ => .pure nofun
  · exact .after fun _ => .bind (.required hnode) fun node h =>
      .pure (List.forall_mem_singleton.mpr h)
  · exact .after fun _ => .after fun _ => .pure nofun
  · exact .after fun _ => .bind (.defaulted nofun (Decoder.yields_nullable hnode)) fun item h =>
      .pure fun node hmem => h node (Option.mem_toList.mp hmem)
  · exact .after fun _ => .pure nofun
  · exact .after fun _ => .after fun _ => .bind (.required (Block.yields true hnode)) fun _ h =>
      .pure h
  · exact .after fun _ => .after fun _ => .pure nofun
  · exact .after fun _ => .after fun _ => .after fun _ => .pure nofun
  · exact .after fun _ => .after fun _ => .pure nofun
  · exact .after fun _ => .after fun _ => .after fun _ => .pure nofun
  · exact .after fun _ => .after fun _ => .after fun _ => .pure nofun
  · exact .after fun _ => .after fun _ => .after fun _ => .pure nofun
  · exact .pure nofun
  · exact .pure nofun
  · exact .after fun _ => .pure nofun
  · exact .pure nofun
  · exact .pure nofun
  · exact fun _ _ _ hread => by cases hread

/-- All that an instruction that is read brings along is well-formed. -/
theorem yields_wellFormed : Instruction.decoder.Yields WellFormed := by
  intro depth value instruction hread
  have hrecord (name : String) := Decoder.yields_record (yields_recordOf name)
  unfold decoder at hread
  split at hread
  · split at hread
    · split at hread
      · exact hrecord _ _ _ _ hread
      · cases hread
    · exact hrecord _ _ _ _ hread
    · cases hread
  · cases hread

end Instruction

namespace CommandLine

/-- A value that is loaded from a file meets a condition of all that its decoder reads. -/
theorem of_load {α : Type} {files : Files} {decode : Decoder α} {p : α → Prop}
    (h : decode.Yields p) {name unreadable malformed : String} {a : α}
    (hload : load files decode name unreadable malformed = .ok a) : p a := by
  unfold load at hload
  split at hload
  · cases hload
  · split at hload
    · cases hload
    · rename_i hread
      cases hload
      obtain ⟨value, -, hread⟩ := Option.bind_eq_some_iff.mp hread
      exact h _ _ _ hread

end CommandLine

end TreeEditor
