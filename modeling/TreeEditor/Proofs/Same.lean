import TreeEditor.Proofs.Blocks
import TreeEditor.Proofs.Slots
import TreeEditor.Node.Equality

/-!
# Documents that are the same

`Property.Corresponds` says that two properties are of one kind and that what they hold is related
child by child; `Node.same` is the equality of documents that it gives up to the order of
properties (`Node.same_iff`). On well-formed documents it is an equivalence (`Node.same_refl`,
`Node.same_symm`, `Node.same_trans`). All three are inductions over the document: the relation of
two nodes follows from that of the nodes below them.
-/

namespace TreeEditor

/-- Two headers have the same replication and related nodes. -/
structure Header.Corresponds {α β : Type} (R : α → β → Prop) (a : Header α) (b : Header β) :
    Prop where
  replication : a.replication = b.replication
  pattern : R a.pattern b.pattern
  source : R a.source b.source

/-- Two properties are of one kind and hold related contents. -/
inductive Property.Corresponds {α β : Type} (R : α → β → Prop) :
    Property α → Property β → Prop where
  | value (leaf : Leaf) : Corresponds R (.value leaf) (.value leaf)
  | child {a : α} {b : β} (node : R a b) : Corresponds R (.child a) (.child b)
  | optional (assigned : Bool) {a : Option α} {b : Option β} (item : Option.Rel R a b) :
    Corresponds R (.optional assigned a) (.optional assigned b)
  | list {as : List α} {bs : List β} (nodes : List.Forall₂ R as bs) :
    Corresponds R (.list as) (.list bs)
  | blockList {as : List (Block α α)} {bs : List (Block β β)}
    (blocks : List.Forall₂ (Block.Corresponds (Header.Corresponds R) R) as bs) :
    Corresponds R (.blockList as) (.blockList bs)

section Lists

variable {α β γ : Type} {R : α → β → Prop} {S : β → γ → Prop} {as : List α} {bs : List β}
  {cs : List γ}

/-- The items of related lists are related as items of them. -/
theorem forall₂_attach (h : List.Forall₂ R as bs) :
    List.Forall₂ (fun a b => a ∈ as ∧ b ∈ bs ∧ R a b) as bs :=
  List.forall₂_iff_zip.mpr ⟨h.length_eq, fun hzip =>
    ⟨(List.of_mem_zip hzip).1, (List.of_mem_zip hzip).2, List.forall₂_zip h hzip⟩⟩

/-- Lists related to one list are related through its items. -/
theorem forall₂_comp (h : List.Forall₂ R as bs) (h' : List.Forall₂ S bs cs) :
    List.Forall₂ (fun a c => ∃ b, R a b ∧ S b c) as cs := by
  induction h generalizing cs with
  | nil =>
    cases h'
    exact .nil
  | cons hab _ ih =>
    cases h' with
    | cons hbc hrest => exact .cons ⟨_, hab, hbc⟩ (ih hrest)

/-- Two lists are related exactly when the test of their items says so. -/
theorem relatedLists_iff {related : α → β → Bool} :
    relatedLists related as bs = true ↔ List.Forall₂ (fun a b => related a b = true) as bs := by
  induction as generalizing bs with
  | nil => cases bs <;> simp [relatedLists]
  | cons a as ih => cases bs <;> simp [relatedLists, ih]

/-- Two optional values are related exactly when the test says so. -/
theorem relatedItems_iff {related : α → β → Bool} {a : Option α} {b : Option β} :
    relatedItems related a b = true ↔ Option.Rel (fun a b => related a b = true) a b := by
  cases a <;> cases b <;> simp [relatedItems]

end Lists

namespace Header.Corresponds

variable {α β γ : Type} {R : α → β → Prop} {a : Header α} {b : Header β}

/-- Headers related in one way are related in a weaker way. -/
theorem mono {S : α → β → Prop} (h : a.Corresponds R b) (hRS : ∀ a b, R a b → S a b) :
    a.Corresponds S b := ⟨h.replication, hRS _ _ h.pattern, hRS _ _ h.source⟩

/-- Headers of the same replication stay related when it is changed. -/
theorem setReplication (h : a.Corresponds R b) (replication : Replication) :
    Header.Corresponds R { a with replication } { b with replication } :=
  ⟨rfl, h.pattern, h.source⟩

end Header.Corresponds

/-- Two headers correspond exactly when the test says so. -/
theorem Header.related_iff {α β : Type} {related : α → β → Bool} {a : Header α} {b : Header β} :
    a.related related b = true ↔ a.Corresponds (fun a b => related a b = true) b := by
  unfold Header.related
  simp only [Bool.and_eq_true, decide_eq_true_eq]
  exact ⟨fun ⟨⟨h, h'⟩, h''⟩ => ⟨h, h', h''⟩, fun h => ⟨⟨h.1, h.2⟩, h.3⟩⟩

/-- Two blocks correspond exactly when the test says so. -/
theorem Block.related_iff {α β : Type} {related : α → β → Bool} {a : Block α α} {b : Block β β} :
    a.related related b = true ↔
      a.Corresponds (Header.Corresponds fun a b => related a b = true)
        (fun a b => related a b = true) b := by
  unfold Block.related
  rw [Bool.and_eq_true, Header.related_iff, relatedLists_iff]
  exact ⟨fun ⟨h, h'⟩ => ⟨h, h'⟩, fun h => ⟨h.1, h.2⟩⟩

namespace Property

/-- Two properties correspond exactly when the test says so. -/
theorem related_iff {α β : Type} {related : α → β → Bool} {P : Property α} {Q : Property β} :
    P.related related Q = true ↔ P.Corresponds (fun a b => related a b = true) Q := by
  constructor
  · intro h
    cases P <;> cases Q <;> simp only [Property.related, Bool.and_eq_true, decide_eq_true_eq,
      Bool.false_eq_true] at h
    · subst h
      exact .value _
    · exact .child h
    · obtain ⟨rfl, hitem⟩ := h
      exact .optional _ (relatedItems_iff.mp hitem)
    · exact .list (relatedLists_iff.mp h)
    · exact .blockList ((relatedLists_iff.mp h).imp fun _ _ => Block.related_iff.mp)
  · intro h
    cases h with
    | value leaf => simp [Property.related]
    | child node => exact node
    | optional assigned item => simpa [Property.related] using relatedItems_iff.mpr item
    | list nodes => exact relatedLists_iff.mpr nodes
    | blockList blocks =>
      exact relatedLists_iff.mpr (blocks.imp fun _ _ => Block.related_iff.mpr)

/-- The test for the results of children is the one for the children. -/
theorem related_map {α β γ : Type} {related : β → γ → Bool} (f : α → β) (P : Property α)
    (Q : Property γ) :
    (P.map f).related related Q = P.related (fun a => related (f a)) Q := by
  -- The tests of lists look at the items only, whatever list they are in.
  have hlists : ∀ (as : List α) (cs : List γ), relatedLists related (as.map f) cs =
      relatedLists (fun a => related (f a)) as cs := by
    intro as
    induction as with
    | nil => intro cs; cases cs <;> rfl
    | cons a as ih => intro cs; cases cs <;> simp [relatedLists, ih]
  cases P with
  | value leaf => cases Q <;> rfl
  | child node => cases Q <;> rfl
  | optional assigned item =>
    cases Q with
    | optional assigned' item' => cases item <;> cases item' <;> rfl
    | _ => rfl
  | list nodes => cases Q <;> simp [map, Property.related, hlists]
  | blockList blocks =>
    cases Q with
    | blockList blocks' =>
      simp only [map, Property.related]
      induction blocks generalizing blocks' with
      | nil => cases blocks' <;> rfl
      | cons block rest ih =>
        cases blocks' with
        | nil => rfl
        | cons block' rest' =>
          simp [relatedLists, ih, Block.related, Header.related, Block.map, Header.map, hlists]
    | _ => rfl

namespace Corresponds

variable {α β γ : Type} {R : α → β → Prop} {P : Property α} {Q : Property β}

/-- What properties hold is related as what is under them. -/
theorem attach (h : P.Corresponds R Q) :
    P.Corresponds (fun a b => a ∈ P.nodes ∧ b ∈ Q.nodes ∧ R a b) Q := by
  cases h with
  | value leaf => exact .value leaf
  | child node => exact .child ⟨List.mem_singleton_self _, List.mem_singleton_self _, node⟩
  | optional assigned item =>
    cases item with
    | none => exact .optional assigned .none
    | some hab => exact .optional assigned (.some (by simpa [nodes] using hab))
  | list nodes => exact .list (forall₂_attach nodes)
  | blockList blocks =>
    refine .blockList ((forall₂_attach blocks).imp ?_)
    rintro a b ⟨ha, hb, hheader, hmembers⟩
    have hleft : ∀ x ∈ a.header.pattern :: a.header.source :: a.members, x ∈ nodes (.blockList _) :=
      fun x hx => List.mem_flatMap.mpr ⟨a, ha, hx⟩
    have hright : ∀ x ∈ b.header.pattern :: b.header.source :: b.members,
        x ∈ nodes (.blockList _) := fun x hx => List.mem_flatMap.mpr ⟨b, hb, hx⟩
    refine ⟨⟨hheader.replication, ?_, ?_⟩, (forall₂_attach hmembers).imp ?_⟩
    · exact ⟨hleft _ (by simp), hright _ (by simp), hheader.pattern⟩
    · exact ⟨hleft _ (by simp), hright _ (by simp), hheader.source⟩
    · rintro x y ⟨hx, hy, hxy⟩
      exact ⟨hleft _ (by simp [hx]), hright _ (by simp [hy]), hxy⟩

/-- Properties related in one way are related in a weaker way. -/
theorem mono {S : α → β → Prop} (h : P.Corresponds R Q) (hRS : ∀ a b, R a b → S a b) :
    P.Corresponds S Q := by
  cases h with
  | value leaf => exact .value leaf
  | child node => exact .child (hRS _ _ node)
  | optional assigned item => exact .optional assigned (rel_mono item hRS)
  | list nodes => exact .list (nodes.imp hRS)
  | blockList blocks =>
    exact .blockList (blocks.imp fun _ _ hab => ⟨hab.header.mono hRS, hab.members.imp hRS⟩)

/-- A property corresponds to itself when all nodes under it do. -/
theorem refl {R : α → α → Prop} (h : ∀ a ∈ P.nodes, R a a) : P.Corresponds R P := by
  cases P with
  | value leaf => exact .value leaf
  | child node => exact .child (h node (List.mem_singleton_self _))
  | optional assigned item =>
    cases item with
    | none => exact .optional assigned .none
    | some node => exact .optional assigned (.some (h node (List.mem_singleton_self _)))
  | list nodes => exact .list (List.forall₂_same.mpr h)
  | blockList blocks =>
    refine .blockList (List.forall₂_same.mpr fun block hblock => ?_)
    have hunder : ∀ x ∈ block.header.pattern :: block.header.source :: block.members, R x x :=
      fun x hx => h x (List.mem_flatMap.mpr ⟨block, hblock, hx⟩)
    exact ⟨⟨rfl, hunder _ (by simp), hunder _ (by simp)⟩,
      List.forall₂_same.mpr fun x hx => hunder x (by simp [hx])⟩

/-- The properties correspond the other way round. -/
theorem flip (h : P.Corresponds R Q) : Q.Corresponds (fun b a => R a b) P := by
  have hlists : ∀ {as : List α} {bs : List β}, List.Forall₂ R as bs →
      List.Forall₂ (fun b a => R a b) bs as := fun h => h.flip
  cases h with
  | value leaf => exact .value leaf
  | child node => exact .child node
  | optional assigned item =>
    cases item with
    | none => exact .optional assigned .none
    | some hab => exact .optional assigned (.some hab)
  | list nodes => exact .list nodes.flip
  | blockList blocks =>
    refine .blockList (List.Forall₂.flip (blocks.imp fun a b hab => ?_))
    exact ⟨⟨hab.header.replication.symm, hab.header.pattern, hab.header.source⟩,
      hlists hab.members⟩

/-- Properties that correspond to one property are related through what it holds. -/
theorem comp {S : β → γ → Prop} {T : Property γ} (h : P.Corresponds R Q)
    (h' : Q.Corresponds S T) : P.Corresponds (fun a c => ∃ b, R a b ∧ S b c) T := by
  cases h with
  | value leaf =>
    cases h'
    exact .value leaf
  | child node =>
    cases h' with
    | child node' => exact .child ⟨_, node, node'⟩
  | optional assigned item =>
    cases h' with
    | optional _ item' =>
      refine .optional assigned ?_
      cases item with
      | none =>
        cases item'
        exact .none
      | some hab =>
        cases item' with
        | some hbc => exact .some ⟨_, hab, hbc⟩
  | list nodes =>
    cases h' with
    | list nodes' => exact .list (forall₂_comp nodes nodes')
  | blockList blocks =>
    cases h' with
    | blockList blocks' =>
      refine .blockList ((forall₂_comp blocks blocks').imp ?_)
      rintro a c ⟨b, hab, hbc⟩
      exact ⟨⟨hab.header.replication.trans hbc.header.replication,
        ⟨_, hab.header.pattern, hbc.header.pattern⟩, ⟨_, hab.header.source, hbc.header.source⟩⟩,
        forall₂_comp hab.members hbc.members⟩

/-- Corresponding properties are of one kind. -/
theorem kind_eq (h : P.Corresponds R Q) : P.kind = Q.kind := by
  cases h <;> rfl

/-- Corresponding properties hold related children in a slot. -/
theorem childAt? (h : P.Corresponds R Q) (slot : Slot) :
    Option.Rel R (P.childAt? slot) (Q.childAt? slot) := by
  cases h with
  | value leaf => exact .none
  | child node =>
    cases slot with
    | placeholder => exact .some node
    | _ => exact .none
  | optional assigned item =>
    cases slot with
    | optional =>
      cases assigned with
      | true => exact item
      | false => exact .none
    | _ => cases assigned <;> exact .none
  | list nodes =>
    cases slot with
    | list position => exact rel_getElem? nodes position
    | _ => exact .none
  | blockList blocks =>
    cases slot with
    | member block position =>
      exact rel_bind (rel_getElem? blocks block) fun a b hab => rel_getElem? hab.members position
    | _ => exact .none

/-- Properties still correspond when corresponding children are put into a slot. -/
theorem replaceChild (h : P.Corresponds R Q) {a : α} {b : β} (hab : R a b) (slot : Slot) :
    (P.replaceChild slot a).Corresponds R (Q.replaceChild slot b) := by
  cases h with
  | value leaf => exact .value leaf
  | child node =>
    cases slot with
    | placeholder => exact .child hab
    | _ => exact .child node
  | optional assigned item =>
    cases slot with
    | optional =>
      cases item with
      | none => exact .optional assigned .none
      | some _ => exact .optional assigned (.some hab)
    | _ => exact .optional assigned item
  | list nodes =>
    cases slot with
    | list position => exact .list (forall₂_set nodes hab position)
    | _ => exact .list nodes
  | blockList blocks =>
    cases slot with
    | member block position =>
      refine .blockList (forall₂_modify blocks (fun x y hxy => ?_) block)
      exact ⟨hxy.header, forall₂_set hxy.members hab position⟩
    | _ => exact .blockList blocks

/-- Where one of two corresponding properties has no empty block the other has none. -/
theorem populated (h : P.Corresponds R Q) (hQ : Q.Populated) : P.Populated := by
  cases h with
  | blockList blocks =>
    intro content hcontent
    obtain ⟨index, hindex⟩ := List.mem_iff_getElem?.mp hcontent
    have hrel := rel_getElem? blocks index
    rw [hindex, rel_some_left] at hrel
    obtain ⟨other, hother, hab⟩ := hrel
    intro hnil
    have hlength := hab.members.length_eq
    rw [hnil] at hlength
    exact hQ _ (List.mem_of_getElem? hother) (List.length_eq_zero_iff.mp hlength.symm)
  | _ => trivial

end Corresponds

end Property

namespace Node

/-- The test of two nodes, with the recursion taken apart. -/
theorem same_eq (a b : Node) :
    a.same b = (a.kind = b.kind && a.properties.length = b.properties.length &&
      a.properties.all fun entry =>
        match b.property? entry.1 with
        | some property => entry.2.related Node.same property
        | none => false) := by
  obtain ⟨kind, properties⟩ := a
  conv_lhs => unfold same
  rw [fold_mk]
  simp only [List.length_map, List.all_map, kind_mk, properties_mk]
  congr 2
  funext entry
  simp only [Function.comp_apply, Property.related_map]
  rfl

/-- Two nodes are the same. -/
def Same (a b : Node) : Prop := a.same b = true

/-- Two nodes that have properties under the same names, all different, have the same names. -/
theorem perm_keys {a b : Node} {R : Property Node → Property Node → Prop}
    (ha : (Table.keys a.properties).Nodup) (hb : (Table.keys b.properties).Nodup)
    (h : ∀ name, Option.Rel R (a.property? name) (b.property? name)) :
    (Table.keys a.properties).Perm (Table.keys b.properties) := by
  refine (List.perm_ext_iff_of_nodup ha hb).mpr fun name => ?_
  have hname := h name
  rw [← not_iff_not, ← Table.get?_eq_none_iff, ← Table.get?_eq_none_iff]
  unfold property? at hname
  cases hname : Table.get? name a.properties <;>
    cases hname' : Table.get? name b.properties <;> simp_all

/-- Two nodes whose properties have different names are the same exactly when they are of one kind
and have corresponding properties under all names. -/
theorem same_iff {a b : Node} (ha : (Table.keys a.properties).Nodup)
    (hb : (Table.keys b.properties).Nodup) :
    a.Same b ↔ a.kind = b.kind ∧
      ∀ name, Option.Rel (Property.Corresponds Same) (a.property? name) (b.property? name) := by
  unfold Same
  rw [same_eq]
  simp only [Bool.and_eq_true, decide_eq_true_eq, List.all_eq_true, and_assoc, Prod.forall]
  refine and_congr_right fun _ => ?_
  have hentries : ∀ entry ∈ a.properties, a.property? entry.1 = some entry.2 :=
    fun entry h => (Table.mem_iff_get? ha).mp h
  constructor
  · rintro ⟨hlength, hall⟩ name
    cases hname : a.property? name with
    | some property =>
      have htest := hall name property (Table.mem_of_get? hname)
      split at htest
      · rename_i other hother
        rw [hother]
        exact .some (Property.related_iff.mp htest)
      · cases htest
    | none =>
      -- All names of `a` are names of `b`, which has no more of them.
      have hsubset : Table.keys a.properties ⊆ Table.keys b.properties := by
        intro key hkey
        obtain ⟨⟨_, property⟩, hmem, rfl⟩ := List.mem_map.mp hkey
        have htest := hall _ property hmem
        split at htest
        · rename_i other hother
          by_contra hnone
          rw [property?, Table.get?_eq_none_iff.mpr hnone] at hother
          cases hother
        · cases htest
      have hperm : (Table.keys a.properties).Perm (Table.keys b.properties) := by
        refine (List.subperm_of_subset ha hsubset).perm_of_length_le ?_
        simp [Table.keys, hlength]
      have hnone : b.property? name = none := by
        rw [property?, Table.get?_eq_none_iff] at hname ⊢
        exact fun h => hname (hperm.mem_iff.mpr h)
      rw [hnone]
      exact .none
  · intro hrel
    have hkeys := perm_keys ha hb hrel
    refine ⟨by simpa [Table.keys] using hkeys.length_eq, fun name property hmem => ?_⟩
    have hname := hrel name
    rw [hentries _ hmem, rel_some_left] at hname
    obtain ⟨other, hother, h⟩ := hname
    rw [hother]
    exact Property.related_iff.mpr h

/-- The same documents are of one kind. -/
theorem Same.kind_eq {a b : Node} (h : a.Same b) : a.kind = b.kind := by
  unfold Same at h
  rw [same_eq] at h
  simp only [Bool.and_eq_true, decide_eq_true_eq] at h
  exact h.1.1

/-- A well-formed document is the same as itself. -/
theorem same_refl {node : Node} (h : node.WellFormed) : node.Same node := by
  induction node using Node.induct with
  | step node ih =>
    refine (same_iff h.keys h.keys).mpr ⟨rfl, fun name => ?_⟩
    cases hname : node.property? name with
    | none => exact .none
    | some property =>
      exact .some (.refl fun child hchild =>
        ih _ (Table.mem_of_get? hname) child hchild (h.property hname hchild))

/-- Sameness of well-formed documents goes both ways. -/
theorem same_symm {a b : Node} (ha : a.WellFormed) (hb : b.WellFormed) (h : a.Same b) :
    b.Same a := by
  induction a using Node.induct generalizing b with
  | step a ih =>
    obtain ⟨hkind, hrel⟩ := (same_iff ha.keys hb.keys).mp h
    refine (same_iff hb.keys ha.keys).mpr ⟨hkind.symm, fun name => ?_⟩
    have hname := hrel name
    cases hP : a.property? name with
    | none =>
      rw [hP, rel_none_left] at hname
      rw [hname]
      exact .none
    | some P =>
      rw [hP, rel_some_left] at hname
      obtain ⟨Q, hQ, hPQ⟩ := hname
      rw [hQ]
      refine .some (hPQ.attach.flip.mono ?_)
      rintro y x ⟨hx, hy, hxy⟩
      exact ih _ (Table.mem_of_get? hP) x hx (ha.property hP hx) (hb.property hQ hy) hxy

/-- Documents that are the same as one well-formed document are the same. -/
theorem same_trans {a b c : Node} (ha : a.WellFormed) (hb : b.WellFormed) (hc : c.WellFormed)
    (hab : a.Same b) (hbc : b.Same c) : a.Same c := by
  -- By induction on the first node, with the other two met property by property under its names.
  induction a using Node.induct generalizing b c with
  | step a ih =>
    obtain ⟨hkind, hrel⟩ := (same_iff ha.keys hb.keys).mp hab
    obtain ⟨hkind', hrel'⟩ := (same_iff hb.keys hc.keys).mp hbc
    refine (same_iff ha.keys hc.keys).mpr ⟨hkind.trans hkind', fun name => ?_⟩
    have hname := hrel name
    have hname' := hrel' name
    cases hP : a.property? name with
    | none =>
      rw [hP, rel_none_left] at hname
      rw [hname, rel_none_left] at hname'
      rw [hname']
      exact .none
    | some P =>
      rw [hP, rel_some_left] at hname
      obtain ⟨Q, hQ, hPQ⟩ := hname
      rw [hQ, rel_some_left] at hname'
      obtain ⟨T, hT, hQT⟩ := hname'
      rw [hT]
      refine .some ((hPQ.attach.comp hQT.attach).mono ?_)
      rintro x z ⟨y, ⟨hx, hy, hxy⟩, -, hz, hyz⟩
      exact ih _ (Table.mem_of_get? hP) x hx (ha.property hP hx) (hb.property hQ hy)
        (hc.property hT hz) hxy hyz

end Node

end TreeEditor
