import Script.Node.Object
import Script.Proofs.JsonText
import Script.Proofs.Shape

/-!
# Loading back what is saved

Loading undoes saving for every tree. One lemma covers the objects of all kinds: the names of the
fields of a kind differ from each other and from the key of the type, so each field is found again.
What is saved for a program is plain, so it also survives as a text.
-/
namespace Script.Node

theorem ofName?_name (kind : Kind) : Kind.ofName? kind.name = some kind := by
  cases kind <;> decide

theorem keys_nodup (kind : Kind) : ("type" :: kind.fieldNames).Nodup := by
  cases kind <;> decide

theorem membersOfJson_zip {names : List String} {fields : List Json} {nodes : List Node}
    (hf : List.Forall₂ (fun j n => ofJson j = .ok n) fields nodes) :
    membersOfJson (names.zip fields) = names.zip (nodes.map .ok) := by
  induction hf generalizing names with
  | nil => simp [membersOfJson]
  | cons hj _ ih =>
    cases names with
    | nil => rfl
    | cons name names =>
      simp only [List.zip_cons_cons, membersOfJson, hj, ih, List.map_cons]

theorem collect_cons {name : String} {x : Except LoadFault Node}
    {loaded : List (String × Except LoadFault Node)} {names : List String} (hn : name ∉ names) :
    collect ((name, x) :: loaded) names = collect loaded names := by
  induction names with
  | nil => rfl
  | cons first names ih =>
    simp only [List.mem_cons, not_or] at hn
    have hl : ((name, x) :: loaded).lookup first = loaded.lookup first := by
      have : (first == name) = false := beq_eq_false_iff_ne.mpr (Ne.symm hn.1)
      rw [List.lookup_cons, this]
    rw [collect, collect, hl, ih hn.2]

theorem collect_zip {names : List String} {nodes : List Node} (hn : names.Nodup)
    (hl : names.length = nodes.length) :
    collect (names.zip (nodes.map .ok)) names = .ok (nodes.map some) := by
  induction names generalizing nodes with
  | nil =>
    have : nodes = [] := List.length_eq_zero_iff.mp hl.symm
    simp [this, collect]
  | cons name names ih =>
    cases nodes with
    | nil => simp at hl
    | cons node nodes =>
      rw [List.nodup_cons] at hn
      have ht := ih hn.2 (by simpa using hl)
      simp [collect, collect_cons hn.1, ht, Except.map]

/-- An object is loaded as the node of its kind, if its fields are loaded. -/
theorem ofJson_object {kind : Kind} {fields : List Json} {nodes : List Node} {n : Node}
    (hf : List.Forall₂ (fun j n => ofJson j = .ok n) fields nodes)
    (hl : kind.fieldNames.length = nodes.length) (hb : build? kind (nodes.map some) = some n) :
    ofJson (object kind fields) = .ok n := by
  have hk := keys_nodup kind
  rw [List.nodup_cons] at hk
  simp only [object, ofJson, Json.member?, List.lookup_cons_self, membersOfJson, assemble, kindOf,
    ofName?_name, membersOfJson_zip hf, collect_cons hk.1, collect_zip hk.2 hl, hb]

theorem foldAll_eq_map {β : Type} (atom : Node → β) (list : List β → β)
    (node : Kind → List β → β) (items : List Node) :
    foldAll atom list node items = items.map (fold atom list node) := by
  induction items with
  | nil => rw [foldAll, List.map_nil]
  | cons item items ih => rw [foldAll, ih, List.map_cons]

theorem toJson_list (items : List Node) : toJson (.list items) = .list (items.map toJson) := by
  simp only [toJson, fold, foldAll_eq_map]

mutual

/-- Loading undoes saving. The induction is on the tree, a case for each kind. -/
theorem ofJson_toJson : ∀ n : Node, ofJson n.toJson = .ok n
  | .null => rfl
  | .boolean _ => rfl
  | .integer _ => rfl
  | .real _ => rfl
  | .text _ => rfl
  | .codes _ => rfl
  | .list items => by
      rw [toJson_list, ofJson, listOfJson_map_toJson items]
      rfl
  | .program body => ofJson_object (.cons (ofJson_toJson body) .nil) rfl rfl
  | .numberLiteral value => ofJson_object (.cons (ofJson_toJson value) .nil) rfl rfl
  | .stringLiteral value => ofJson_object (.cons (ofJson_toJson value) .nil) rfl rfl
  | .booleanLiteral value => ofJson_object (.cons (ofJson_toJson value) .nil) rfl rfl
  | .nullLiteral => ofJson_object .nil rfl rfl
  | .identifier name => ofJson_object (.cons (ofJson_toJson name) .nil) rfl rfl
  | .varDecl name value isConst =>
      ofJson_object (.cons (ofJson_toJson name) (.cons (ofJson_toJson value)
        (.cons (ofJson_toJson isConst) .nil))) rfl rfl
  | .assign name value =>
      ofJson_object (.cons (ofJson_toJson name) (.cons (ofJson_toJson value) .nil)) rfl rfl
  | .unaryOp op operand =>
      ofJson_object (.cons (ofJson_toJson op) (.cons (ofJson_toJson operand) .nil)) rfl rfl
  | .binaryOp op left right =>
      ofJson_object (.cons (ofJson_toJson op) (.cons (ofJson_toJson left)
        (.cons (ofJson_toJson right) .nil))) rfl rfl
  | .block statements => ofJson_object (.cons (ofJson_toJson statements) .nil) rfl rfl
  | .ifStmt condition thenBlock elseBlock =>
      ofJson_object (.cons (ofJson_toJson condition) (.cons (ofJson_toJson thenBlock)
        (.cons (ofJson_toJson elseBlock) .nil))) rfl rfl
  | .whileStmt condition body =>
      ofJson_object (.cons (ofJson_toJson condition) (.cons (ofJson_toJson body) .nil)) rfl rfl
  | .forStmt init condition update body =>
      ofJson_object (.cons (ofJson_toJson init) (.cons (ofJson_toJson condition)
        (.cons (ofJson_toJson update) (.cons (ofJson_toJson body) .nil)))) rfl rfl
  | .funcDecl name params body =>
      ofJson_object (.cons (ofJson_toJson name) (.cons (ofJson_toJson params)
        (.cons (ofJson_toJson body) .nil))) rfl rfl
  | .call name args =>
      ofJson_object (.cons (ofJson_toJson name) (.cons (ofJson_toJson args) .nil)) rfl rfl
  | .returnStmt value => ofJson_object (.cons (ofJson_toJson value) .nil) rfl rfl
  | .deleteStmt name => ofJson_object (.cons (ofJson_toJson name) .nil) rfl rfl
  | .arrayLiteral elements => ofJson_object (.cons (ofJson_toJson elements) .nil) rfl rfl
  | .index target i =>
      ofJson_object (.cons (ofJson_toJson target) (.cons (ofJson_toJson i) .nil)) rfl rfl
  | .emptyStmt => ofJson_object .nil rfl rfl

theorem listOfJson_map_toJson : ∀ items : List Node, listOfJson (items.map toJson) = .ok items
  | [] => rfl
  | item :: items => by
      rw [List.map_cons, listOfJson, ofJson_toJson item, listOfJson_map_toJson items]
      rfl

end

theorem plain_object {kind : Kind} {fields : List Json}
    (hl : kind.fieldNames.length = fields.length) (hf : fields.Forall Json.Plain) :
    (object kind fields).Plain := by
  refine .object ?_ ?_
  · rw [List.map_cons, List.map_fst_zip (Nat.le_of_eq hl)]
    exact keys_nodup kind
  · intro m hm
    rcases List.mem_cons.mp hm with rfl | hm
    · exact .text _
    · exact List.forall_iff_forall_mem.mp hf m.2 (List.of_mem_zip hm).2

theorem plain_list {items : List Node} (hi : ∀ n ∈ items, n.toJson.Plain) :
    (toJson (.list items)).Plain := by
  rw [toJson_list]
  refine .list fun j hj => ?_
  obtain ⟨n, hn, rfl⟩ := List.mem_map.mp hj
  exact hi n hn

theorem plain_block {statements : List Node} (hs : ∀ s ∈ statements, s.toJson.Plain) :
    (toJson (.block (.list statements))).Plain :=
  plain_object rfl (plain_list hs)

theorem Expression.plain {e : Node} (he : e.Expression) : e.toJson.Plain := by
  induction he with
  | number _ => exact plain_object rfl (Json.Plain.text _)
  | string _ => exact plain_object rfl (Json.Plain.text _)
  | boolean b => exact plain_object rfl (Json.Plain.boolean b)
  | null => exact plain_object rfl trivial
  | identifier _ => exact plain_object rfl (Json.Plain.text _)
  | assign _ _ ih => exact plain_object rfl ⟨.text _, ih⟩
  | negation _ _ ih => exact plain_object rfl ⟨.text _, ih⟩
  | step _ _ => exact plain_object rfl ⟨.text _, plain_object rfl (Json.Plain.text _)⟩
  | binary _ _ _ iha ihb => exact plain_object rfl ⟨.text _, iha, ihb⟩
  | call _ _ ih => exact plain_object rfl ⟨.text _, plain_list ih⟩
  | array _ ih => exact plain_object rfl (plain_list ih)
  | index _ _ iha ihi => exact plain_object rfl ⟨iha, ihi⟩

theorem Declaration.plain {d : Node} (hd : d.Declaration) : d.toJson.Plain := by
  cases hd with
  | uninitialized _ => exact plain_object rfl ⟨.text _, .null, .boolean _⟩
  | initialized b _ he => exact plain_object rfl ⟨.text _, he.plain, .boolean _⟩

theorem Statement.plain {s : Node} (hs : s.Statement) : s.toJson.Plain := by
  induction hs with
  | expression he => exact he.plain
  | declaration hd => exact hd.plain
  | block _ ih => exact plain_block ih
  | empty => exact plain_object rfl trivial
  | @function x ps ss _ _ _ ih =>
    have hp : (toJson (.list (ps.map .text))).Plain := by
      refine plain_list fun n hn => ?_
      obtain ⟨p, -, rfl⟩ := List.mem_map.mp hn
      exact .text p
    exact plain_object rfl ⟨.text _, hp, plain_block ih⟩
  | ifThen he _ ih => exact plain_object rfl ⟨he.plain, plain_block ih, .null⟩
  | ifElse he _ _ ihs ihr => exact plain_object rfl ⟨he.plain, plain_block ihs, plain_block ihr⟩
  | «while» he _ ih => exact plain_object rfl ⟨he.plain, plain_block ih⟩
  | «for» hi he hn _ ih =>
    have hi : (toJson _).Plain := hi.elim Declaration.plain Expression.plain
    exact plain_object rfl ⟨hi, he.plain, hn.plain, plain_block ih⟩
  | returnNothing => exact plain_object rfl Json.Plain.null
  | returnValue he => exact plain_object rfl he.plain
  | delete _ => exact plain_object rfl (Json.Plain.text _)

theorem WellFormed.plain {p : Node} (hp : p.WellFormed) : p.toJson.Plain := by
  cases hp with
  | program hs => exact plain_object rfl (plain_list fun s h => (hs s h).plain)

end Script.Node
