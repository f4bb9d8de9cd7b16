import Script.Proofs.JsonTrees

/-!
# Loading any JSON value

A value that is loaded need not have been saved. Only what stands at a live position is looked at:
the items of lists, and of an object the fields of the kind that its type names. If every live
object names a kind and has its fields, what is loaded is saved as a tidy copy of the value.
Otherwise there is a fault, the first one on a walk that looks at the type of an object, then at
its fields in their order, and then for fields that are missing.
-/
namespace Script

open Node (Kind)

namespace Json

/-- A value that has no other values in it. -/
inductive Atomic : Json → Prop
  | null : Atomic .null
  | boolean (b) : Atomic (.boolean b)
  | integer (i) : Atomic (.integer i)
  | real (x) : Atomic (.real x)
  | text (s) : Atomic (.text s)
  | codes (cs) : Atomic (.codes cs)

mutual

/-- Induction on a value, through the items of lists and the members of objects. -/
theorem induct {P : Json → Prop} (atom : ∀ j, Atomic j → P j)
    (list : ∀ items, (∀ x ∈ items, P x) → P (.list items))
    (object : ∀ members, (∀ m ∈ members, P m.2) → P (.object members)) : ∀ j, P j
  | .null => atom _ .null
  | .boolean b => atom _ (.boolean b)
  | .integer i => atom _ (.integer i)
  | .real x => atom _ (.real x)
  | .text s => atom _ (.text s)
  | .codes cs => atom _ (.codes cs)
  | .list items => list items (induct_items atom list object items)
  | .object members => object members (induct_members atom list object members)

theorem induct_items {P : Json → Prop} (atom : ∀ j, Atomic j → P j)
    (list : ∀ items, (∀ x ∈ items, P x) → P (.list items))
    (object : ∀ members, (∀ m ∈ members, P m.2) → P (.object members)) :
    ∀ items : List Json, ∀ x ∈ items, P x
  | [] => List.forall_mem_nil _
  | item :: items => List.forall_mem_cons.mpr
      ⟨induct atom list object item, induct_items atom list object items⟩

theorem induct_members {P : Json → Prop} (atom : ∀ j, Atomic j → P j)
    (list : ∀ items, (∀ x ∈ items, P x) → P (.list items))
    (object : ∀ members, (∀ m ∈ members, P m.2) → P (.object members)) :
    ∀ members : List (String × Json), ∀ m ∈ members, P m.2
  | [] => List.forall_mem_nil _
  | (_, value) :: members => List.forall_mem_cons.mpr
      ⟨induct atom list object value, induct_members atom list object members⟩

end

section Fold

variable {β : Type} (atom : Json → β) (list : List β → β)
  (object : List (String × Json) → List (String × β) → β)

mutual

/-- What a value comes to, from its leaves up; an object also shows its members as they are. -/
def fold : Json → β
  | .null => atom .null
  | .boolean b => atom (.boolean b)
  | .integer i => atom (.integer i)
  | .real x => atom (.real x)
  | .text s => atom (.text s)
  | .codes cs => atom (.codes cs)
  | .list items => list (foldItems items)
  | .object members => object members (foldMembers members)

def foldItems : List Json → List β
  | [] => []
  | item :: rest => fold item :: foldItems rest

def foldMembers : List (String × Json) → List (String × β)
  | [] => []
  | (key, value) :: rest => (key, fold value) :: foldMembers rest

end

theorem foldItems_eq_map (items : List Json) :
    foldItems atom list object items = items.map (fold atom list object) := by
  induction items with
  | nil => simp [foldItems]
  | cons item items ih => simp [foldItems, ih]

theorem foldMembers_eq_map (members : List (String × Json)) :
    foldMembers atom list object members =
      members.map fun m => (m.1, fold atom list object m.2) := by
  induction members with
  | nil => simp [foldMembers]
  | cons m members ih => simp [foldMembers, ih]

end Fold

theorem lookup_filterMap {β : Type} (g : String → Option β) (names : List String) (key : String) :
    (names.filterMap fun name => (g name).map (name, ·)).lookup key =
      if key ∈ names then g key else none := by
  induction names with
  | nil => rfl
  | cons name names ih =>
    rw [List.filterMap_cons]
    cases hg : g name with
    | none =>
      rw [Option.map_none, ih]
      by_cases hk : key = name
      · simp [hk, hg]
      · simp [hk]
    | some b =>
      rw [Option.map_some]
      by_cases hk : key = name
      · simp [hk, hg]
      · have : (key == name) = false := beq_eq_false_iff_ne.mpr hk
        simp only [List.lookup_cons, this, ih, List.mem_cons, hk, false_or]

theorem lookup_map {β γ : Type} (f : β → γ) (members : List (String × β)) (key : String) :
    (members.map fun m => (m.1, f m.2)).lookup key = (members.lookup key).map f := by
  induction members with
  | nil => rfl
  | cons m members ih =>
    rw [List.map_cons, List.lookup_cons, List.lookup_cons, ih]
    cases key == m.1 <;> rfl

theorem mem_of_member? {members : List (String × Json)} {key : String} {value : Json}
    (h : member? key members = some value) : (key, value) ∈ members := by
  obtain ⟨before, after, rfl, -⟩ := List.lookup_eq_some_iff.mp h
  simp

end Json

namespace Json

variable {members : List (String × Json)}

/-- The object names a kind as its type. -/
def Names (members : List (String × Json)) (kind : Kind) : Prop :=
  member? "type" members = some (.text kind.name)

/-- The one field that may be missing. -/
def Spared (kind : Kind) (field : String) : Prop := kind = .varDecl ∧ field = "is_const"

instance (kind : Kind) (field : String) : Decidable (Spared kind field) :=
  inferInstanceAs (Decidable (_ ∧ _))

/-- The second value stands at a live position of the first: it is reached through items of lists
and through fields of the kinds that objects name. -/
inductive Live : Json → Json → Prop
  | here (j) : Live j j
  | item {items x part} (hx : x ∈ items) (h : Live x part) : Live (.list items) part
  | field {members kind name x part} (hkind : Names members kind) (hname : name ∈ kind.fieldNames)
      (hx : member? name members = some x) (h : Live x part) : Live (.object members) part

/-- An object of a kind, with all of its fields but for the one that may be missing. -/
def Sound (members : List (String × Json)) : Prop :=
  ∃ kind, Names members kind ∧
    ∀ name ∈ kind.fieldNames, Spared kind name ∨ (member? name members).isSome = true

/-- How messages show what an object has for its type, unless it is a list or an object. -/
def typeShown : Option Json → Option String
  | none | some .null => some "None"
  | some (.boolean b) => some (if b then "True" else "False")
  | some (.integer i) => some (toString i)
  | some (.real x) => some (Node.describeReal x)
  | some (.text s) => some s
  | some (.codes cs) => some (Text.Code.shown cs)
  | some (.list _) | some (.object _) => none

/-- What is wrong with an object itself, whatever its fields hold. -/
inductive Faulty (members : List (String × Json)) : LoadFault → Prop
  | unknownType {shown} (hno : ∀ kind, ¬ Names members kind)
      (h : typeShown (member? "type" members) = some shown) : Faulty members (.unknownType shown)
  | typeNotScalar (h : typeShown (member? "type" members) = none) : Faulty members .typeNotScalar
  | missingField {kind name} (hkind : Names members kind) (hname : name ∈ kind.fieldNames)
      (hs : ¬ Spared kind name) (h : member? name members = none) : Faulty members .missingField

theorem Names.unique {kind kind' : Kind} (h : Names members kind) (h' : Names members kind') :
    kind = kind' := by
  have hname : kind.name = kind'.name := by simpa using h.symm.trans h'
  have hkind := Node.ofName?_name kind
  rw [hname, Node.ofName?_name] at hkind
  exact (Option.some.inj hkind).symm

theorem kindOf_eq_ok_iff {kind : Kind} :
    Node.kindOf (member? "type" members) = .ok kind ↔ Names members kind := by
  unfold Names
  constructor
  · intro h
    cases ht : member? "type" members with
    | none => simp [ht, Node.kindOf] at h
    | some t =>
      rw [ht] at h
      cases t with
      | text s =>
        cases hs : Kind.ofName? s with
        | none => simp [Node.kindOf, hs] at h
        | some kind' =>
          obtain rfl : kind' = kind := by simpa [Node.kindOf, hs] using h
          have hname : kind'.name = s := by simpa using List.find?_some hs
          rw [hname]
      | _ => simp [Node.kindOf] at h
  · intro h
    rw [h, Node.kindOf, Node.ofName?_name]

theorem kindOf_eq_error {type? : Option Json} {fault : LoadFault}
    (h : Node.kindOf type? = .error fault) :
    fault = ((typeShown type?).map LoadFault.unknownType).getD .typeNotScalar := by
  cases type? with
  | none => exact (Except.error.inj h).symm
  | some t =>
    cases t with
    | text s =>
      rw [Node.kindOf] at h
      cases hs : Kind.ofName? s with
      | none =>
        rw [hs] at h
        exact (Except.error.inj h).symm
      | some kind => simp [hs] at h
    | _ => exact (Except.error.inj h).symm

/-- An object whose type has a fault has no other. -/
theorem faulty_iff_of_kindOf_eq_error {fault fault' : LoadFault}
    (h : Node.kindOf (member? "type" members) = .error fault) :
    Faulty members fault' ↔ fault' = fault := by
  have hno (kind : Kind) : ¬ Names members kind := by
    rw [← kindOf_eq_ok_iff, h]
    exact nofun
  have hfault := kindOf_eq_error h
  constructor
  · rintro (⟨-, hs⟩ | hs | ⟨hkind, -, -, -⟩)
    · simpa [hs] using hfault.symm
    · simpa [hs] using hfault.symm
    · exact absurd hkind (hno _)
  · rintro rfl
    cases hs : typeShown (member? "type" members) with
    | none => simpa [hfault, hs] using Faulty.typeNotScalar hs
    | some shown => simpa [hfault, hs] using Faulty.unknownType hno hs

/-- An object of a kind can only miss a field. -/
theorem Names.faulty_iff {kind : Kind} {fault : LoadFault} (h : Names members kind) :
    Faulty members fault ↔ fault = .missingField ∧
      ∃ name ∈ kind.fieldNames, ¬ Spared kind name ∧ member? name members = none := by
  constructor
  · rintro (⟨hno, -⟩ | hs | ⟨hkind, hname, hs, hmiss⟩)
    · exact absurd h (hno kind)
    · simp [show member? "type" members = _ from h, typeShown] at hs
    · obtain rfl := h.unique hkind
      exact ⟨rfl, _, hname, hs, hmiss⟩
  · rintro ⟨rfl, name, hname, hs, hmiss⟩
    exact .missingField h hname hs hmiss

/-- A sound object is one without a fault of its own. -/
theorem sound_iff : Sound members ↔ ∀ fault, ¬ Faulty members fault := by
  cases hk : Node.kindOf (member? "type" members) with
  | error fault =>
    have hno (kind : Kind) : ¬ Names members kind := by
      rw [← kindOf_eq_ok_iff, hk]
      exact nofun
    refine iff_of_false (fun ⟨kind, hkind, _⟩ => hno kind hkind) fun h => ?_
    exact h fault ((faulty_iff_of_kindOf_eq_error hk).mpr rfl)
  | ok kind =>
    have hkind := kindOf_eq_ok_iff.mp hk
    constructor
    · rintro ⟨kind', hkind', hall⟩ fault hf
      obtain rfl := hkind.unique hkind'
      obtain ⟨-, name, hname, hs, hmiss⟩ := hkind.faulty_iff.mp hf
      simpa [hs, hmiss] using hall name hname
    · intro h
      refine ⟨kind, hkind, fun name hname => or_iff_not_imp_left.mpr fun hs => ?_⟩
      by_contra hmiss
      exact h _ (.missingField hkind hname hs (by simpa using hmiss))

end Json

namespace Json

/-- The faults of an object: of its type, or of its fields in their order and then its own. -/
def objectFaults (members : List (String × Json)) (inner : List (String × List LoadFault)) :
    List LoadFault :=
  match Node.kindOf (member? "type" members) with
  | .error fault => [fault]
  | .ok kind =>
      (kind.fieldNames.filterMap (inner.lookup ·)).flatten ++
        if ∀ name ∈ kind.fieldNames, Spared kind name ∨ (member? name members).isSome = true then []
        else [.missingField]

/-- All the faults of a value in the order in which a walk through its live positions meets them. -/
def faults : Json → List LoadFault := fold (fun _ => []) List.flatten objectFaults

def tidyFields (kind : Kind) (inner : List (String × Json)) : List (String × Json) :=
  kind.fieldNames.filterMap fun name =>
    ((inner.lookup name).or (if Spared kind name then some (.boolean false) else none)).map
      (name, ·)

/-- The type of an object, and the fields of the kind that it names. -/
def tidyMembers (members inner : List (String × Json)) : List (String × Json) :=
  (member? "type" members).toList.map ("type", ·) ++
    match Node.kindOf (member? "type" members) with
    | .error _ => []
    | .ok kind => tidyFields kind inner

/-- The value with no other keys than its objects look at, and those in the order of their kind. -/
def tidy : Json → Json := fold id .list fun members inner => .object (tidyMembers members inner)

theorem Atomic.faults {j : Json} (h : Atomic j) : j.faults = [] := by
  cases h <;> rfl

theorem Atomic.tidy {j : Json} (h : Atomic j) : j.tidy = j := by
  cases h <;> rfl

theorem Atomic.ofJson {j : Json} (h : Atomic j) : ∃ n, Node.ofJson j = .ok n ∧ n.toJson = j := by
  cases h <;> exact ⟨_, rfl, rfl⟩

theorem faults_list (items : List Json) : (Json.list items).faults = items.flatMap faults := by
  rw [faults, fold, foldItems_eq_map, List.flatMap_def]

theorem tidy_list (items : List Json) : (Json.list items).tidy = .list (items.map tidy) := by
  rw [tidy, fold, foldItems_eq_map]

theorem faults_object (members : List (String × Json)) :
    (Json.object members).faults =
      objectFaults members (members.map fun m => (m.1, m.2.faults)) := by
  rw [faults, fold, foldMembers_eq_map]

theorem tidy_object (members : List (String × Json)) :
    (Json.object members).tidy =
      .object (tidyMembers members (members.map fun m => (m.1, m.2.tidy))) := by
  rw [tidy, fold, foldMembers_eq_map]

theorem lookup_tidyFields (kind : Kind) (inner : List (String × Json)) (name : String) :
    (tidyFields kind inner).lookup name =
      if name ∈ kind.fieldNames then
        (inner.lookup name).or (if Spared kind name then some (.boolean false) else none)
      else none :=
  lookup_filterMap _ kind.fieldNames name

theorem member?_type_tidyMembers (members inner : List (String × Json)) :
    member? "type" (tidyMembers members inner) = member? "type" members := by
  unfold tidyMembers
  cases ht : member? "type" members with
  | none => rfl
  | some t => rfl

theorem Names.member?_tidyMembers {kind : Kind} {name : String} (h : Names members kind)
    (inner : List (String × Json)) (hname : name ∈ kind.fieldNames) :
    member? name (tidyMembers members inner) =
      (inner.lookup name).or (if Spared kind name then some (.boolean false) else none) := by
  have htype : (name == "type") = false :=
    beq_eq_false_iff_ne.mpr fun h =>
      (List.nodup_cons.mp (Node.keys_nodup kind)).1 (h ▸ hname)
  rw [tidyMembers, kindOf_eq_ok_iff.mpr h, show member? "type" members = _ from h]
  simp only [Option.toList_some, List.map_cons, List.map_nil, List.cons_append, List.nil_append,
    member?, List.lookup_cons, htype, lookup_tidyFields, if_pos hname]

/-- The faults of an object of a kind. -/
theorem Names.mem_faults_iff {kind : Kind} {fault : LoadFault} (h : Names members kind) :
    fault ∈ (Json.object members).faults ↔
      (∃ name ∈ kind.fieldNames, ∃ x, member? name members = some x ∧ fault ∈ x.faults) ∨
        Faulty members fault := by
  have hnot : (¬ ∀ name ∈ kind.fieldNames, Spared kind name ∨
      (member? name members).isSome = true) ↔
        ∃ name ∈ kind.fieldNames, ¬ Spared kind name ∧ member? name members = none := by
    simp
  rw [faults_object, objectFaults, kindOf_eq_ok_iff.mpr h, h.faulty_iff, ← hnot]
  simp only [List.mem_append, List.mem_flatten, List.mem_filterMap, lookup_map,
    Option.map_eq_some_iff]
  refine or_congr ⟨?_, ?_⟩ ?_
  · rintro ⟨fs, ⟨name, hname, x, hx, rfl⟩, hf⟩
    exact ⟨name, hname, x, hx, hf⟩
  · rintro ⟨name, hname, x, hx, hf⟩
    exact ⟨_, ⟨name, hname, x, hx, rfl⟩, hf⟩
  · split <;> simp_all

/-- The walk meets exactly the faults of the live objects. -/
theorem mem_faults_iff (j : Json) (fault : LoadFault) :
    fault ∈ j.faults ↔ ∃ members, Live j (.object members) ∧ Faulty members fault := by
  induction j using induct with
  | atom j hj =>
    rw [hj.faults]
    refine iff_of_false List.not_mem_nil ?_
    rintro ⟨members, hlive, -⟩
    cases hlive <;> cases hj
  | list items ih =>
    rw [faults_list, List.mem_flatMap]
    constructor
    · rintro ⟨x, hx, hf⟩
      obtain ⟨members, hlive, hfaulty⟩ := (ih x hx).mp hf
      exact ⟨members, .item hx hlive, hfaulty⟩
    · rintro ⟨members, hlive, hfaulty⟩
      cases hlive with
      | item hx hlive => exact ⟨_, hx, (ih _ hx).mpr ⟨members, hlive, hfaulty⟩⟩
  | object members ih =>
    cases hk : Node.kindOf (member? "type" members) with
    | error f =>
      have hno (kind : Kind) : ¬ Names members kind := by
        rw [← kindOf_eq_ok_iff, hk]
        exact nofun
      rw [faults_object, objectFaults, hk, List.mem_singleton,
        ← faulty_iff_of_kindOf_eq_error hk]
      refine ⟨fun hf => ⟨members, .here _, hf⟩, ?_⟩
      rintro ⟨members', hlive, hf⟩
      cases hlive with
      | here => exact hf
      | field hkind => exact absurd hkind (hno _)
    | ok kind =>
      have hkind := kindOf_eq_ok_iff.mp hk
      rw [hkind.mem_faults_iff]
      constructor
      · rintro (⟨name, hname, x, hx, hf⟩ | hf)
        · obtain ⟨members', hlive, hfaulty⟩ := (ih _ (mem_of_member? hx)).mp hf
          exact ⟨members', .field hkind hname hx hlive, hfaulty⟩
        · exact ⟨members, .here _, hf⟩
      · rintro ⟨members', hlive, hfaulty⟩
        cases hlive with
        | here => exact .inr hfaulty
        | field hkind' hname hx hlive =>
          obtain rfl := hkind.unique hkind'
          exact .inl ⟨_, hname, _, hx, (ih _ (mem_of_member? hx)).mpr ⟨members', hlive, hfaulty⟩⟩

end Json

namespace Node

variable {members : List (String × Json)} {kind : Kind}

def faultOf {α : Type} : Except LoadFault α → Option LoadFault
  | .ok _ => none
  | .error fault => some fault

theorem faultOf_map {α β : Type} (f : α → β) (x : Except LoadFault α) :
    faultOf (x.map f) = faultOf x := by
  cases x <;> rfl

theorem map_eq_ok_iff {α β : Type} {f : α → β} {x : Except LoadFault α} {b : β} :
    x.map f = .ok b ↔ ∃ a, x = .ok a ∧ f a = b := by
  cases x <;> simp [Except.map]

theorem faultOf_eq_some_iff {α : Type} {x : Except LoadFault α} {fault : LoadFault} :
    faultOf x = some fault ↔ x = .error fault := by
  cases x <;> simp [faultOf]

theorem faultOf_eq_none_iff {α : Type} {x : Except LoadFault α} :
    faultOf x = none ↔ ∃ a, x = .ok a := by
  cases x <;> simp [faultOf]

theorem faultOf_listOfJson {items : List Json}
    (ih : ∀ x ∈ items, faultOf (ofJson x) = x.faults.head?) :
    faultOf (listOfJson items) = (items.flatMap Json.faults).head? := by
  induction items with
  | nil => rfl
  | cons x items ihs =>
    rw [List.forall_mem_cons] at ih
    rw [List.flatMap_cons, List.head?_append, ← ih.1, ← ihs ih.2, listOfJson]
    cases ofJson x with
    | error fault => rfl
    | ok n => exact faultOf_map _ _

theorem membersOfJson_eq_map (members : List (String × Json)) :
    membersOfJson members = members.map fun m => (m.1, ofJson m.2) := by
  induction members with
  | nil => rfl
  | cons m members ih => rw [membersOfJson, ih, List.map_cons]

theorem lookup_membersOfJson (members : List (String × Json)) (name : String) :
    (membersOfJson members).lookup name = (Json.member? name members).map ofJson := by
  rw [membersOfJson_eq_map, Json.lookup_map]
  rfl

/-- Fields are collected up to the first fault in one of them. -/
theorem faultOf_collect {loaded : List (String × Except LoadFault Node)}
    {inner : List (String × List LoadFault)} {names : List String}
    (h : ∀ name ∈ names, (loaded.lookup name).map faultOf = (inner.lookup name).map List.head?) :
    faultOf (collect loaded names) = (names.filterMap (inner.lookup ·)).flatten.head? := by
  induction names with
  | nil => rfl
  | cons name names ih =>
    rw [List.forall_mem_cons] at h
    have ih := ih h.2
    rw [collect]
    cases hi : inner.lookup name with
    | none =>
      have hl : loaded.lookup name = none := by simpa [hi] using h.1
      rw [hl, List.filterMap_cons, hi, ← ih]
      exact faultOf_map _ _
    | some faults =>
      obtain ⟨x, hl, hx⟩ : ∃ x, loaded.lookup name = some x ∧ faultOf x = faults.head? := by
        simpa [hi] using h.1
      rw [hl, List.filterMap_cons, hi, List.flatten_cons, List.head?_append, ← ih, ← hx]
      cases x with
      | error fault => rfl
      | ok n => exact faultOf_map _ _

/-- The node in a field that is present and has no fault. -/
def loaded? (members : List (String × Json)) (name : String) : Option Node :=
  (Json.member? name members).bind fun x => (ofJson x).toOption

/-- What is collected when there is no fault: every field that is present. -/
theorem collect_eq_ok {names : List String} {fields : List (Option Node)}
    (h : collect (membersOfJson members) names = .ok fields) :
    fields = names.map (loaded? members) ∧
      ∀ name ∈ names, ∀ x, Json.member? name members = some x → ∃ n, ofJson x = .ok n := by
  induction names generalizing fields with
  | nil => exact ⟨(Except.ok.inj h).symm, List.forall_mem_nil _⟩
  | cons name names ih =>
    rw [collect, lookup_membersOfJson] at h
    rw [List.map_cons, loaded?, List.forall_mem_cons]
    cases hx : Json.member? name members with
    | none =>
      rw [hx] at h
      obtain ⟨rest, hr, rfl⟩ := map_eq_ok_iff.mp h
      obtain ⟨rfl, hall⟩ := ih hr
      exact ⟨rfl, fun _ h => absurd h (Option.some_ne_none _).symm, hall⟩
    | some x =>
      rw [hx, Option.map_some] at h
      cases hn : ofJson x with
      | error fault => simp [hn] at h
      | ok n =>
        rw [hn] at h
        obtain ⟨rest, hr, rfl⟩ := map_eq_ok_iff.mp h
        obtain ⟨rfl, hall⟩ := ih hr
        exact ⟨by simp [hn, Except.toOption], by simpa using ⟨n, hn⟩, hall⟩

/-- A node is built unless a field is missing that may not be. -/
theorem build?_eq_none_iff (kind : Kind) (field : String → Option Node) :
    build? kind (kind.fieldNames.map field) = none ↔
      ∃ name ∈ kind.fieldNames, ¬ Json.Spared kind name ∧ field name = none := by
  unfold Json.Spared
  generalize hf : kind.fieldNames.map field = fields
  fun_cases build? kind fields
  case case22 hno =>
    subst hf
    simp only [Option.eq_none_iff_forall_ne_some]
    cases kind <;> simp_all [Kind.fieldNames] <;> grind
  all_goals simp_all [Kind.fieldNames]

theorem loaded?_eq_none_iff {name : String}
    (h : ∀ x, Json.member? name members = some x → ∃ n, ofJson x = .ok n) :
    loaded? members name = none ↔ Json.member? name members = none := by
  rw [loaded?]
  cases hx : Json.member? name members with
  | none => simp
  | some x =>
    obtain ⟨n, hn⟩ := h x hx
    simp [hn, Except.toOption]

/-- From fields without faults a node is built just when none is missing but the one that may be. -/
theorem build?_loaded_isSome_iff
    (hall : ∀ name ∈ kind.fieldNames, ∀ x, Json.member? name members = some x →
      ∃ n, ofJson x = .ok n) :
    (build? kind (kind.fieldNames.map (loaded? members))).isSome = true ↔
      ∀ name ∈ kind.fieldNames,
        Json.Spared kind name ∨ (Json.member? name members).isSome = true := by
  rw [← not_iff_not, Option.not_isSome_iff_eq_none, build?_eq_none_iff]
  push Not
  refine exists_congr fun name => and_congr_right fun hname => and_congr_right fun _ => ?_
  rw [loaded?_eq_none_iff (hall name hname), ← Option.not_isSome_iff_eq_none]

/-- A node that is built is saved with the fields it was built from. -/
theorem toJson_of_build? {kind : Kind} {field : String → Option Node} {n : Node}
    (h : build? kind (kind.fieldNames.map field) = some n) :
    n.toJson = object kind
      (kind.fieldNames.map fun name => ((field name).map toJson).getD (.boolean false)) := by
  generalize hf : kind.fieldNames.map field = fields at h
  revert h
  fun_cases build? kind fields
  case case22 => exact nofun
  case case7 =>
    rintro ⟨⟩
    obtain ⟨h1, h2, rfl⟩ :
        field "name" = some _ ∧ field "value" = some _ ∧ field "is_const" = _ := by
      simpa [Kind.fieldNames] using hf
    cases h3 : field "is_const" <;> simp [Kind.fieldNames, toJson, fold, h1, h2, h3, atomToJson]
  all_goals
    rintro ⟨⟩
    simp_all [Kind.fieldNames, toJson, fold]

theorem kind?_of_build? {kind : Kind} {fields : List (Option Node)} {n : Node}
    (h : build? kind fields = some n) : n.kind? = some kind := by
  revert h
  fun_cases build? kind fields
  case case22 => exact nofun
  all_goals
    rintro ⟨⟩
    rfl

theorem map_faultOf_lookup (ih : ∀ m ∈ members, faultOf (ofJson m.2) = m.2.faults.head?)
    (name : String) : ((membersOfJson members).lookup name).map faultOf =
      ((members.map fun m => (m.1, m.2.faults)).lookup name).map List.head? := by
  rw [lookup_membersOfJson, Json.lookup_map]
  cases hx : Json.member? name members with
  | none => simp [show members.lookup name = none from hx]
  | some x => simp [show members.lookup name = some x from hx, ih _ (Json.mem_of_member? hx)]

/-- Loading stops at the first fault of the walk. -/
theorem faultOf_ofJson (j : Json) : faultOf (ofJson j) = j.faults.head? := by
  induction j using Json.induct with
  | atom j hj =>
    obtain ⟨n, hn, -⟩ := hj.ofJson
    rw [hn, hj.faults]
    rfl
  | list items ih => rw [ofJson, faultOf_map, faultOf_listOfJson ih, Json.faults_list]
  | object members ih =>
    rw [ofJson, assemble, Json.faults_object, Json.objectFaults]
    cases hk : kindOf (Json.member? "type" members) with
    | error fault => rfl
    | ok kind =>
      dsimp only
      rw [List.head?_append, ← faultOf_collect fun name _ => map_faultOf_lookup ih name]
      cases hc : collect (membersOfJson members) kind.fieldNames with
      | error fault => rfl
      | ok fields =>
        obtain ⟨rfl, hall⟩ := collect_eq_ok hc
        simp only [← build?_loaded_isSome_iff hall]
        cases build? kind (kind.fieldNames.map (loaded? members)) with
        | none => rfl
        | some n => rfl

theorem map_toJson_of_listOfJson {items : List Json} {nodes : List Node}
    (h : listOfJson items = .ok nodes)
    (ih : ∀ x ∈ items, ∀ {n}, ofJson x = .ok n → n.toJson = x.tidy) :
    nodes.map toJson = items.map Json.tidy := by
  induction items generalizing nodes with
  | nil =>
    obtain rfl := Except.ok.inj h
    rfl
  | cons x items ihs =>
    rw [listOfJson] at h
    cases hx : ofJson x with
    | error fault => simp [hx] at h
    | ok n =>
      rw [hx] at h
      obtain ⟨rest, hr, rfl⟩ := map_eq_ok_iff.mp h
      rw [List.map_cons, List.map_cons, ih x List.mem_cons_self hx,
        ihs hr fun y hy => ih y (List.mem_cons_of_mem x hy)]

/-- An object that is loaded names a kind, and that is built from the fields which are present. -/
theorem ofJson_object_eq_ok {n : Node} (h : ofJson (.object members) = .ok n) :
    ∃ kind, Json.Names members kind ∧ build? kind (kind.fieldNames.map (loaded? members)) = some n ∧
      ∀ name ∈ kind.fieldNames, ∀ x, Json.member? name members = some x →
        ∃ n, ofJson x = .ok n := by
  rw [ofJson, assemble] at h
  cases hk : kindOf (Json.member? "type" members) with
  | error fault => simp [hk] at h
  | ok kind =>
    cases hc : collect (membersOfJson members) kind.fieldNames with
    | error fault => simp [hk, hc] at h
    | ok fields =>
      obtain ⟨rfl, hall⟩ := collect_eq_ok hc
      cases hb : build? kind (kind.fieldNames.map (loaded? members)) with
      | none => simp [hk, hc, hb] at h
      | some n' =>
        obtain rfl : n' = n := by simpa [hk, hc, hb] using h
        exact ⟨kind, Json.kindOf_eq_ok_iff.mp hk, hb, hall⟩

/-- What is loaded is saved as the tidy value. -/
theorem toJson_of_ofJson {j : Json} {n : Node} (h : ofJson j = .ok n) : n.toJson = j.tidy := by
  induction j using Json.induct generalizing n with
  | atom j hj =>
    obtain ⟨n', hn, hj'⟩ := hj.ofJson
    obtain rfl := Except.ok.inj (hn.symm.trans h)
    rw [hj', hj.tidy]
  | list items ih =>
    rw [ofJson] at h
    obtain ⟨nodes, hnodes, rfl⟩ := map_eq_ok_iff.mp h
    rw [Json.tidy_list, toJson_list, map_toJson_of_listOfJson hnodes ih]
  | object members ih =>
    obtain ⟨kind, hkind, hb, hall⟩ := ofJson_object_eq_ok h
    have hsound := (build?_loaded_isSome_iff hall).mp (Option.isSome_of_mem hb)
    have hfield (name : String) (hname : name ∈ kind.fieldNames) :
        (((Json.member? name members).map Json.tidy).or
          (if Json.Spared kind name then some (.boolean false) else none)) =
            some (((loaded? members name).map toJson).getD (.boolean false)) := by
      rw [loaded?]
      cases hx : Json.member? name members with
      | some x =>
        obtain ⟨nx, hnx⟩ := hall name hname x hx
        simp [hnx, Except.toOption, ih _ (Json.mem_of_member? hx) hnx]
      | none =>
        have hs : Json.Spared kind name := by simpa [hx] using hsound name hname
        simp [hs]
    rw [toJson_of_build? hb, Json.tidy_object, Json.tidyMembers, object,
      Json.kindOf_eq_ok_iff.mpr hkind, show Json.member? "type" members = _ from hkind,
      ← List.map_prod_left_eq_zip]
    dsimp only
    rw [Json.tidyFields, List.filterMap_eq_map_iff_forall_eq_some.mpr]
    · rfl
    · intro name hname
      rw [Json.lookup_map, show members.lookup name = Json.member? name members from rfl,
        hfield name hname]
      rfl

theorem listOfJson_congr {items : List Json} {f : Json → Json}
    (ih : ∀ x ∈ items, ofJson (f x) = ofJson x) : listOfJson (items.map f) = listOfJson items := by
  induction items with
  | nil => rfl
  | cons x items ihs =>
    rw [List.forall_mem_cons] at ih
    rw [List.map_cons, listOfJson, listOfJson, ih.1, ihs ih.2]

theorem collect_congr {loaded loaded' : List (String × Except LoadFault Node)}
    {names : List String} (h : ∀ name ∈ names, loaded'.lookup name = loaded.lookup name) :
    collect loaded' names = collect loaded names := by
  induction names with
  | nil => rfl
  | cons name names ih =>
    rw [List.forall_mem_cons] at h
    rw [collect, collect, h.1, ih h.2]

/-- Whether a field that may be missing is there with its default makes no difference. -/
theorem assemble_congr {type? : Option Json}
    {loaded loaded' : List (String × Except LoadFault Node)}
    (h : ∀ kind, kindOf type? = .ok kind → ∀ name ∈ kind.fieldNames,
      loaded'.lookup name = (loaded.lookup name).or
        (if Json.Spared kind name then some (.ok (.boolean false)) else none)) :
    assemble type? loaded' = assemble type? loaded := by
  rw [assemble, assemble]
  cases hk : kindOf type? with
  | error fault => rfl
  | ok kind =>
    have h := h kind hk
    by_cases hv : kind = .varDecl
    · subst hv
      obtain ⟨hname, hvalue, hconst⟩ : loaded'.lookup "name" = loaded.lookup "name" ∧
          loaded'.lookup "value" = loaded.lookup "value" ∧
            loaded'.lookup "is_const" =
              (loaded.lookup "is_const").or (some (.ok (.boolean false))) := by
        simpa [Kind.fieldNames, Json.Spared] using h
      simp only [Kind.fieldNames, collect, hname, hvalue, hconst]
      cases hc : loaded.lookup "is_const" with
      | some x => rfl
      | none =>
        rcases loaded.lookup "name" with _ | _ | name <;>
          rcases loaded.lookup "value" with _ | _ | value <;> rfl
    · dsimp only
      rw [collect_congr]
      intro name hname
      rw [h name hname, if_neg fun hs => hv hs.1, Option.or_none]

/-- A tidy value is loaded as the value itself is, its fault included. -/
theorem ofJson_tidy (j : Json) : ofJson j.tidy = ofJson j := by
  induction j using Json.induct with
  | atom j hj => rw [hj.tidy]
  | list items ih => rw [Json.tidy_list, ofJson, ofJson, listOfJson_congr ih]
  | object members ih =>
    rw [Json.tidy_object, ofJson, ofJson, Json.member?_type_tidyMembers]
    refine assemble_congr fun kind hk name hname => ?_
    rw [lookup_membersOfJson, lookup_membersOfJson,
      (Json.kindOf_eq_ok_iff.mp hk).member?_tidyMembers _ hname, Json.lookup_map]
    cases hx : Json.member? name members with
    | none =>
      rw [show members.lookup name = none from hx]
      by_cases hs : Json.Spared kind name <;> simp [hs, ofJson]
    | some x =>
      rw [show members.lookup name = some x from hx]
      simp [ih _ (Json.mem_of_member? hx)]

/-- Every tree is loaded back as it was saved, whatever its fields hold; and whatever the fields of
a kind, there is a node of that kind which is saved with them. -/
theorem saved_and_loaded :
    (∀ n : Node, ofJson n.toJson = .ok n) ∧
      ∀ (kind : Kind) (field : String → Node), ∃ n : Node, n.kind? = some kind ∧
        n.toJson = object kind (kind.fieldNames.map fun name => (field name).toJson) ∧
        ofJson (object kind (kind.fieldNames.map fun name => (field name).toJson)) = .ok n := by
  refine ⟨ofJson_toJson, fun kind field => ?_⟩
  cases hb : build? kind (kind.fieldNames.map fun name => some (field name)) with
  | none => simpa using (build?_eq_none_iff kind fun name => some (field name)).mp hb
  | some n =>
    have hn : n.toJson = object kind (kind.fieldNames.map fun name => (field name).toJson) :=
      toJson_of_build? hb
    exact ⟨n, kind?_of_build? hb, hn, hn ▸ ofJson_toJson n⟩

/-- A JSON value is loaded just when its live objects are sound, and what is loaded is saved as the
tidy value, which stays as it is when that is done again. Otherwise the fault is the first one of
the walk, which meets the faults of the live objects and no others. Nothing that a tidy value leaves
out makes a difference. -/
theorem ofJson_tidies_or_stops (j : Json) :
    ((∃ n, ofJson j = .ok n) ↔ ∀ members, Json.Live j (.object members) → Json.Sound members) ∧
    (∀ n, ofJson j = .ok n → n.toJson = j.tidy ∧ (ofJson n.toJson).map toJson = .ok n.toJson) ∧
    (∀ fault, ofJson j = .error fault ↔ j.faults.head? = some fault) ∧
    (∀ fault, fault ∈ j.faults ↔
      ∃ members, Json.Live j (.object members) ∧ Json.Faulty members fault) ∧
    ofJson j.tidy = ofJson j := by
  refine ⟨?_, fun n hn => ⟨toJson_of_ofJson hn, ?_⟩, fun fault => ?_, Json.mem_faults_iff j,
    ofJson_tidy j⟩
  · rw [← faultOf_eq_none_iff, faultOf_ofJson, List.head?_eq_none_iff,
      List.eq_nil_iff_forall_not_mem]
    simp only [Json.mem_faults_iff, not_exists, not_and, Json.sound_iff]
    exact ⟨fun h ms hlive fault => h fault ms hlive, fun h fault ms hlive => h ms hlive fault⟩
  · rw [ofJson_toJson]
    rfl
  · rw [← faultOf_ofJson, faultOf_eq_some_iff]

/-- A declaration with its fields in another order and without its mark, and with other keys. -/
def notedDeclaration : Json :=
  .object [("type", .text "VarDecl"), ("note", .object []),
    ("value", .list [.object [("line", .integer 3), ("type", .text "NullLiteral")]]),
    ("name", .text "a")]

/-- An operation without two of its fields, and with an object that has no proper type as the
third. -/
def brokenOperation : Json :=
  .object [("type", .text "BinaryOp"), ("right", .object [("type", .list [])])]

/-- A key that nothing looks at may hold an object without a type; the fault inside a field comes
before the fault that another field is missing. -/
theorem ofJson_declaration_and_operation :
    (∃ n, ofJson notedDeclaration = .ok n ∧
      n.toJson = .object [("type", .text "VarDecl"), ("name", .text "a"),
        ("value", .list [.object [("type", .text "NullLiteral")]]),
        ("is_const", .boolean false)]) ∧
    ofJson brokenOperation = .error .typeNotScalar :=
  ⟨⟨_, rfl, ((ofJson_tidies_or_stops notedDeclaration).2.1 _ rfl).1.trans rfl⟩,
    ((ofJson_tidies_or_stops brokenOperation).2.2.1 _).mpr rfl⟩

end Node
end Script
