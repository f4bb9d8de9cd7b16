import Script.Json.Reader
import Script.Json.Writer
import Script.Text.Lines
import Mathlib.Data.List.Nodup

/-!
# Reading back what is written

A value without numbers is read back from its text as it was, whatever follows the text. Each rule
of the reader is met by one lemma about what the writer puts in front of it.
-/
namespace Script.Json

open Text

/-- A value that has no numbers and no half pairs in it, and in whose objects no key comes twice. -/
inductive Plain : Json → Prop
  | null : Plain .null
  | boolean (b) : Plain (.boolean b)
  | text (s) : Plain (.text s)
  | list {items} (hi : ∀ j ∈ items, Plain j) : Plain (.list items)
  | object {members} (hk : (members.map Prod.fst).Nodup) (hm : ∀ m ∈ members, Plain m.2) :
      Plain (.object members)

theorem unit?_hexDigits {n : Nat} (hn : n < 0x20) :
    ∃ a b c d, hexDigits 4 n = [a, b, c, d] ∧ unit? a b c d = some n := by
  refine ⟨_, _, _, _, rfl, ?_⟩
  revert n
  decide

theorem loneUnit_low {n : Nat} (hn : n < 0x20) : loneUnit n = .char (Char.ofNat n) := by
  have : ¬(0xd800 ≤ n ∧ n < 0xe000) := by omega
  simp [loneUnit, this]

theorem readText_hexDigits {c : Char} (hc : c.toNat < 0x20) (seen : List Code)
    (rest : List Char) :
    readText seen ('\\' :: 'u' :: (hexDigits 4 c.toNat ++ rest)) =
      readText (.char c :: seen) rest := by
  obtain ⟨x, y, z, w, hx, hu⟩ := unit?_hexDigits hc
  have hh : isHighSurrogate c.toNat = false := by
    simp only [isHighSurrogate, Bool.and_eq_false_iff, decide_eq_false_iff_not]
    omega
  rw [hx]
  simp [readText, hu, hh, loneUnit_low hc, Char.ofNat_toNat]

theorem readText_char {c : Char} (hq : c ≠ '"') (hb : c ≠ '\\') (hc : ¬c.toNat < 0x20)
    (seen : List Code) (rest : List Char) :
    readText seen (c :: rest) = readText (.char c :: seen) rest := by
  rw [readText.eq_def]
  split
  case h_5 => simp_all only [List.cons.injEq, if_false]
  all_goals simp_all

theorem readText_escape (c : Char) (seen : List Code) (rest : List Char) :
    readText seen (escape c ++ rest) = readText (.char c :: seen) rest := by
  unfold escape
  split
  · rename_i hc
    simp only [Bool.or_eq_true, decide_eq_true_eq] at hc
    rcases hc with rfl | rfl <;> simp [readText, unescape?]
  split
  · subst_vars; simp [readText, unescape?]
  split
  · subst_vars; simp [readText, unescape?]
  split
  · subst_vars; simp [readText, unescape?]
  split
  · subst_vars; simp [readText, unescape?]
  split
  · subst_vars; simp [readText, unescape?]
  split
  · rename_i hc
    exact readText_hexDigits hc seen rest
  · rename_i hq _ _ _ _ _ hc
    simp only [Bool.or_eq_true, decide_eq_true_eq, not_or] at hq
    exact readText_char hq.1 hq.2 hc seen rest

theorem readText_escapes (cs : List Char) (seen : List Code) (rest : List Char) :
    readText seen (cs.flatMap escape ++ '"' :: rest) =
      .ok (seen.reverse ++ cs.map .char, rest) := by
  induction cs generalizing seen with
  | nil => simp [readText]
  | cons c cs ih =>
    rw [List.flatMap_cons, List.append_assoc, readText_escape, ih]
    simp

theorem chars?_map_char (cs : List Char) : Code.chars? (cs.map .char) = some cs := by
  induction cs with
  | nil => rfl
  | cons c cs ih =>
    simp only [Code.chars?] at ih
    simp [Code.chars?, Code.char?, ih]

theorem ofCodes_ofText (s : String) : ofCodes (s.toList.map .char) = .text s := by
  simp [ofCodes, chars?_map_char]

theorem shown_ofText (s : String) : Code.shown (s.toList.map .char) = s := by
  have h (cs : List Char) : (cs.map Code.char).flatMap Code.shownOne = cs := by
    induction cs with
    | nil => rfl
    | cons c cs ih => simp only [List.map_cons, List.flatMap_cons, ih, Code.shownOne]; rfl
  simp [Code.shown, h]

theorem skipSpace_lineBreak (level : Nat) (cs : List Char) :
    skipSpace (lineBreak level ++ cs) = skipSpace cs := by
  have h (n : Nat) : skipSpace (List.replicate n ' ' ++ cs) = skipSpace cs := by
    induction n with
    | zero => rfl
    | succ n ih => simpa [List.replicate_succ, skipSpace, isSpace] using ih
  simpa [lineBreak, skipSpace, isSpace] using h (2 * level)

theorem skipSpace_cons {c : Char} (hc : isSpace c = false) (cs : List Char) :
    skipSpace (c :: cs) = c :: cs := by
  simp [skipSpace, hc]

/-- A written value starts with a character that is neither a blank nor a closing bracket. -/
theorem write_head {j : Json} (hj : Plain j) (level : Nat) :
    ∃ c cs, write level j = c :: cs ∧ isSpace c = false ∧ c ≠ ']' := by
  cases hj with
  | null => exact ⟨_, _, rfl, by decide, by decide⟩
  | boolean b => cases b <;> exact ⟨_, _, rfl, by decide, by decide⟩
  | text s => exact ⟨'"', _, by rw [write, writeText, List.cons_append], by decide, by decide⟩
  | @list items hi =>
    cases items with
    | nil => exact ⟨_, _, by rw [write], by decide, by decide⟩
    | cons item rest =>
      exact ⟨'[', _, by simp only [write, List.cons_append]; rfl, by decide, by decide⟩
  | @object members hk hm =>
    cases members with
    | nil => exact ⟨_, _, by rw [write], by decide, by decide⟩
    | cons m rest =>
      exact ⟨'{', _, by simp only [write, List.cons_append]; rfl, by decide, by decide⟩

theorem skipSpace_write {j : Json} (hj : Plain j) (level : Nat) (rest : List Char) :
    skipSpace (write level j ++ rest) = write level j ++ rest := by
  obtain ⟨c, cs, hw, hc, -⟩ := write_head hj level
  rw [hw, List.cons_append, skipSpace_cons hc]

section Containers

variable {value : List Char → Reading Json} {level : Nat}

/-- What a reader of values makes of a written value with anything behind it. -/
def ReadsBack (value : List Char → Reading Json) (level : Nat) (j : Json) : Prop :=
  ∀ rest, value (write level j ++ rest) = .ok (j, rest)

/-- The items are read up to the bracket that closes them. The induction is on the items behind the
first one, each of which follows a comma and a line break. -/
theorem readItems_write {item : Json} {items : List Json} {bound : Nat}
    (hj : ∀ j ∈ item :: items, Plain j) (hv : ∀ j ∈ item :: items, ReadsBack value level j)
    (hb : items.length < bound) (outer : Nat) (seen : List Json) (rest : List Char) :
    readItems value bound seen
        (write level item ++ (writeItems level items ++ (lineBreak outer ++ ']' :: rest))) =
      .ok (seen.reverse ++ item :: items, rest) := by
  induction items generalizing item bound seen with
  | nil =>
    obtain ⟨n, rfl⟩ := Nat.exists_eq_succ_of_ne_zero (Nat.ne_of_gt hb)
    have hi := hv item List.mem_cons_self (lineBreak outer ++ ']' :: rest)
    have hs : skipSpace (lineBreak outer ++ ']' :: rest) = ']' :: rest := by
      rw [skipSpace_lineBreak, skipSpace_cons (by decide)]
    simp [readItems, writeItems, hi, hs]
  | cons next items ih =>
    obtain ⟨n, rfl⟩ := Nat.exists_eq_succ_of_ne_zero (Nat.ne_of_gt (Nat.zero_lt_of_lt hb))
    have hn : items.length < n := by simpa using hb
    have hi := hv item List.mem_cons_self
    have ht := ih (fun j hm => hj j (List.mem_cons_of_mem _ hm))
      (fun j hm => hv j (List.mem_cons_of_mem _ hm)) hn (item :: seen)
    have hs (cs : List Char) : skipSpace (lineBreak level ++ (write level next ++ cs)) =
        write level next ++ cs := by
      rw [skipSpace_lineBreak, skipSpace_write (hj next (by simp))]
    rw [readItems]
    simp only [writeItems, List.cons_append, List.append_assoc, hi _,
      skipSpace_cons (show isSpace ',' = false by decide), hs, ht]
    simp

theorem insertMember_eq_append {key : String} {seen : List (String × Json)}
    (hk : key ∉ seen.map Prod.fst) (j : Json) : insertMember key j seen = seen ++ [(key, j)] := by
  induction seen with
  | nil => rfl
  | cons m seen ih =>
    simp only [List.map_cons, List.mem_cons, not_or] at hk
    rw [insertMember, if_neg (Ne.symm hk.1), ih hk.2, List.cons_append]

theorem not_mem_keys_of_nodup {key : String} {j : Json} {seen members : List (String × Json)}
    (hk : ((seen ++ (key, j) :: members).map Prod.fst).Nodup) : key ∉ seen.map Prod.fst := by
  intro hm
  rw [List.map_append, List.nodup_append] at hk
  exact hk.2.2 key hm key (by simp) rfl

theorem readMember_write {j : Json} (hj : Plain j) (hv : ReadsBack value level j) (key : String)
    (rest : List Char) :
    readMember value (writeText key ++ ':' :: ' ' :: (write level j ++ rest)) =
      .ok ((key, j), rest) := by
  have hs : skipSpace (' ' :: (write level j ++ rest)) = write level j ++ rest := by
    calc skipSpace (' ' :: (write level j ++ rest))
      _ = skipSpace (write level j ++ rest) := rfl
      _ = write level j ++ rest := skipSpace_write hj level rest
  simp only [writeText, readMember, List.cons_append, List.append_assoc, readText_escapes,
    List.nil_append, List.reverse_nil, skipSpace_cons (show isSpace ':' = false by decide), hs,
    hv rest]
  simp [Except.map, shown_ofText]

/-- The members are read up to the brace that closes them, by induction as the items are; keys that
are not there yet are added at the end. -/
theorem readMembers_write {key : String} {j : Json} {members : List (String × Json)} {bound : Nat}
    (hj : ∀ m ∈ (key, j) :: members, Plain m.2)
    (hv : ∀ m ∈ (key, j) :: members, ReadsBack value level m.2) (hb : members.length < bound)
    (outer : Nat) (seen : List (String × Json)) (rest : List Char)
    (hk : ((seen ++ (key, j) :: members).map Prod.fst).Nodup) :
    readMembers value bound seen
        (writeText key ++ ':' :: ' ' :: (write level j ++
          (writeMembers level members ++ (lineBreak outer ++ '\x7d' :: rest)))) =
      .ok (seen ++ (key, j) :: members, rest) := by
  have hnew := not_mem_keys_of_nodup hk
  induction members generalizing key j bound seen with
  | nil =>
    obtain ⟨n, rfl⟩ := Nat.exists_eq_succ_of_ne_zero (Nat.ne_of_gt hb)
    have hm := readMember_write (hj _ List.mem_cons_self) (hv _ List.mem_cons_self) key
      (lineBreak outer ++ '\x7d' :: rest)
    have hs : skipSpace (lineBreak outer ++ '\x7d' :: rest) = '\x7d' :: rest := by
      rw [skipSpace_lineBreak, skipSpace_cons (by decide)]
    simp [readMembers, writeMembers, hm, hs, insertMember_eq_append hnew]
  | cons next members ih =>
    obtain ⟨n, rfl⟩ := Nat.exists_eq_succ_of_ne_zero (Nat.ne_of_gt (Nat.zero_lt_of_lt hb))
    have hn : members.length < n := by simpa using hb
    have hm := readMember_write (hj _ List.mem_cons_self) (hv _ List.mem_cons_self) key
    have hk' : ((seen ++ [(key, j)] ++ next :: members).map Prod.fst).Nodup := by simpa using hk
    have ht := ih (fun m h => hj m (List.mem_cons_of_mem _ h))
      (fun m h => hv m (List.mem_cons_of_mem _ h)) hn (seen ++ [(key, j)]) hk'
      (not_mem_keys_of_nodup hk')
    have hs (cs : List Char) : skipSpace (lineBreak level ++ (writeText next.1 ++ cs)) =
        writeText next.1 ++ cs := by
      rw [skipSpace_lineBreak]
      exact skipSpace_cons (by decide) _
    rw [readMembers]
    simp only [writeMembers, List.cons_append, List.append_assoc, hm _,
      skipSpace_cons (show isSpace ',' = false by decide), hs, insertMember_eq_append hnew, ht]
    simp

end Containers

theorem length_le_writeItems (level : Nat) (items : List Json) :
    items.length ≤ (writeItems level items).length := by
  induction items with
  | nil => simp
  | cons item items ih => simp only [writeItems, List.length_cons, List.length_append]; omega

theorem length_write_le_writeItems {j : Json} {items : List Json} (hj : j ∈ items) (level : Nat) :
    (write level j).length ≤ (writeItems level items).length := by
  induction items with
  | nil => simp at hj
  | cons item items ih =>
    simp only [writeItems, List.length_cons, List.length_append]
    rcases List.mem_cons.mp hj with rfl | hj
    · omega
    · have := ih hj
      omega

theorem length_le_writeMembers (level : Nat) (members : List (String × Json)) :
    members.length ≤ (writeMembers level members).length := by
  induction members with
  | nil => simp
  | cons m members ih => simp only [writeMembers, List.length_cons, List.length_append]; omega

theorem length_write_le_writeMembers {m : String × Json} {members : List (String × Json)}
    (hm : m ∈ members) (level : Nat) :
    (write level m.2).length ≤ (writeMembers level members).length := by
  induction members with
  | nil => simp at hm
  | cons n members ih =>
    simp only [writeMembers, List.length_cons, List.length_append]
    rcases List.mem_cons.mp hm with rfl | hm
    · omega
    · have := ih hm
      omega

theorem readValue_list {item : Json} {items : List Json} {level bound : Nat}
    (hj : ∀ j ∈ item :: items, Plain j)
    (hv : ∀ j ∈ item :: items, ReadsBack (readValue bound) (level + 1) j)
    (hb : items.length < bound) :
    ReadsBack (readValue (bound + 1)) level (.list (item :: items)) := by
  intro rest
  obtain ⟨c, cs, hw, hc, hne⟩ := write_head (hj item List.mem_cons_self) (level + 1)
  have hr := readItems_write hj hv hb level [] rest
  have hs (tail : List Char) : skipSpace (lineBreak (level + 1) ++ (c :: tail)) = c :: tail := by
    rw [skipSpace_lineBreak, skipSpace_cons hc]
  rw [hw] at hr
  simp only [write, hw, List.cons_append, List.append_assoc, readValue, hs, List.nil_append]
    at hr ⊢
  split
  · simp_all
  · simp_all [Except.map]

theorem readValue_object {m : String × Json} {members : List (String × Json)} {level bound : Nat}
    (hk : ((m :: members).map Prod.fst).Nodup) (hj : ∀ n ∈ m :: members, Plain n.2)
    (hv : ∀ n ∈ m :: members, ReadsBack (readValue bound) (level + 1) n.2)
    (hb : members.length < bound) :
    ReadsBack (readValue (bound + 1)) level (.object (m :: members)) := by
  intro rest
  have hr := readMembers_write hj hv hb level [] rest hk
  have hs (tail : List Char) : skipSpace (lineBreak (level + 1) ++ (writeText m.1 ++ tail)) =
      writeText m.1 ++ tail := by
    rw [skipSpace_lineBreak]
    exact skipSpace_cons (by decide) _
  simp only [write, List.cons_append, List.append_assoc, readValue, hs, List.nil_append] at hr ⊢
  split
  · simp_all [writeText]
  · simp_all [Except.map]

/-- The reader takes a written value and stops behind it. The induction is on the value: the text of
a container is longer than the texts of its parts, so the bound suffices for them too. -/
theorem readValue_write {j : Json} (hj : Plain j) {level bound : Nat}
    (hb : (write level j).length < bound) : ReadsBack (readValue bound) level j := by
  induction hj generalizing level bound
  all_goals obtain ⟨n, rfl⟩ := Nat.exists_eq_succ_of_ne_zero (Nat.ne_of_gt (Nat.zero_lt_of_lt hb))
  case null =>
    intro rest
    simp [write, readValue, readScalar, words]
  case boolean b =>
    intro rest
    cases b <;> simp [write, readValue, readScalar, words]
  case text s =>
    intro rest
    simp only [write, writeText, readValue, List.cons_append, List.append_assoc,
      readText_escapes, List.nil_append]
    simp [Except.map, ofCodes_ofText]
  case list items hi ih =>
    cases items with
    | nil =>
      intro rest
      simp [write, readValue, skipSpace, isSpace]
    | cons item items =>
      simp only [write, List.length_append, List.length_cons] at hb
      have hlen := length_le_writeItems (level + 1) items
      refine readValue_list hi (fun j hj => ih j hj ?_) (by omega)
      rcases List.mem_cons.mp hj with rfl | hj
      · omega
      · have := length_write_le_writeItems hj (level + 1)
        omega
  case object members hk hm ih =>
    cases members with
    | nil =>
      intro rest
      simp [write, readValue, skipSpace, isSpace]
    | cons m members =>
      simp only [write, List.length_append, List.length_cons] at hb
      have hlen := length_le_writeMembers (level + 1) members
      refine readValue_object hk hm (fun m hm => ih m hm ?_) (by omega)
      rcases List.mem_cons.mp hm with rfl | hm
      · omega
      · have := length_write_le_writeMembers hm (level + 1)
        omega

/-- A plain value is what its text is read as. -/
theorem parse_render {j : Json} (hj : Plain j) : parse j.render = .ok j := by
  have hb : (write 0 j).length < (write 0 j).length + 1 := Nat.lt_succ_self _
  have hr := readValue_write hj hb []
  have hs := skipSpace_write hj 0 []
  rw [List.append_nil] at hr hs
  simp only [parse, render, String.toList_ofList, String.length_ofList, hs, hr]
  rfl

theorem unifyLineEnds_eq_self {cs : List Char} (h : '\r' ∉ cs) : unifyLineEnds cs = cs := by
  induction cs with
  | nil => rfl
  | cons c cs ih =>
    simp only [List.mem_cons, not_or] at h
    rw [unifyLineEnds.eq_def]
    split <;> simp_all

theorem carriage_not_mem_hexDigits {n : Nat} (hn : n < 0x20) : '\r' ∉ hexDigits 4 n := by
  revert n
  decide

theorem carriage_not_mem_escape (c : Char) : '\r' ∉ escape c := by
  unfold escape
  split
  · rename_i hc
    simp only [Bool.or_eq_true, decide_eq_true_eq] at hc
    rcases hc with rfl | rfl <;> decide
  split
  · decide
  split
  · decide
  split
  · decide
  split
  · decide
  split
  · decide
  split
  · rename_i hc
    simp [carriage_not_mem_hexDigits hc]
  · rename_i _ _ hr _ _ _ _
    exact fun h => hr (List.mem_singleton.mp h).symm

theorem carriage_not_mem_writeText (s : String) : '\r' ∉ writeText s := by
  simp [writeText, carriage_not_mem_escape]

theorem carriage_not_mem_lineBreak (level : Nat) : '\r' ∉ lineBreak level := by
  simp [lineBreak]

theorem carriage_not_mem_writeItems {items : List Json} {level : Nat}
    (h : ∀ j ∈ items, '\r' ∉ write level j) : '\r' ∉ writeItems level items := by
  induction items with
  | nil => simp [writeItems]
  | cons item items ih =>
    have hi := h item List.mem_cons_self
    have ht := ih fun j hj => h j (List.mem_cons_of_mem _ hj)
    simp [writeItems, carriage_not_mem_lineBreak, hi, ht]

theorem carriage_not_mem_writeMembers {members : List (String × Json)} {level : Nat}
    (h : ∀ m ∈ members, '\r' ∉ write level m.2) : '\r' ∉ writeMembers level members := by
  induction members with
  | nil => simp [writeMembers]
  | cons m members ih =>
    have hi := h m List.mem_cons_self
    have ht := ih fun n hn => h n (List.mem_cons_of_mem _ hn)
    simp [writeMembers, carriage_not_mem_lineBreak, carriage_not_mem_writeText, hi, ht]

theorem carriage_not_mem_write {j : Json} (hj : Plain j) (level : Nat) :
    '\r' ∉ write level j := by
  induction hj generalizing level with
  | null => simp [write]
  | boolean b => cases b <;> simp [write]
  | text s => simpa [write] using carriage_not_mem_writeText s
  | @list items hi ih =>
    cases items with
    | nil => simp [write]
    | cons item items =>
      have hitem := ih item List.mem_cons_self (level + 1)
      have hrest := carriage_not_mem_writeItems fun j hj =>
        ih j (List.mem_cons_of_mem _ hj) (level + 1)
      simp [write, carriage_not_mem_lineBreak, hitem, hrest]
  | @object members hk hm ih =>
    cases members with
    | nil => simp [write]
    | cons m members =>
      have hfirst := ih m List.mem_cons_self (level + 1)
      have hrest := carriage_not_mem_writeMembers fun n hn =>
        ih n (List.mem_cons_of_mem _ hn) (level + 1)
      simp [write, carriage_not_mem_lineBreak, carriage_not_mem_writeText, hfirst, hrest]

/-- Reading a file changes nothing about a text that has been written there. -/
theorem unifyLineEnds_render {j : Json} (hj : Plain j) :
    String.ofList (unifyLineEnds j.render.toList) = j.render := by
  simp [render, unifyLineEnds_eq_self (carriage_not_mem_write hj 0)]

end Script.Json
