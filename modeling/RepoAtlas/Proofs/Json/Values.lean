import RepoAtlas.Proofs.Json.Tokens

/-!
The values of JSON and their texts. A value may be written in many ways, with white space around
every part of it, and a text is read as a value exactly if it is one of the texts of that value.
-/
namespace RepoAtlas.Json
open Text

/-- One or more parts with commas between them and white space around each. -/
inductive Separated {α : Type} (Part : α → List Char → Prop) : List α → List Char → Prop where
  | last {a : α} {before core after : List Char} : IsGap before → Part a core → IsGap after →
      Separated Part [a] (before ++ (core ++ after))
  | more {a : α} {as : List α} {before core after t : List Char} : IsGap before → Part a core →
      IsGap after → Separated Part as t → Separated Part (a :: as)
        (before ++ (core ++ (after ++ ',' :: t)))

inductive Keyed {α : Type} (Part : α → List Char → Prop) : Units × α → List Char → Prop where
  | mk {a : α} {us : Units} {key gap gap' core : List Char} : Spelled us key → IsGap gap →
      IsGap gap' → Part a core →
      Keyed Part (us, a) ('"' :: (key ++ '"' :: (gap ++ ':' :: (gap' ++ core))))

/-- A value and a text for it, without white space around it. -/
inductive Written : Json → List Char → Prop where
  | null : Written .null "null".toList
  | bool (value : Bool) : Written (.bool value) (if value then "true" else "false").toList
  | number {t : List Char} : IsNumeral t → Written (.number (String.ofList t)) t
  | string {us : Units} {t : List Char} : Spelled us t → Written (.string us) ('"' :: (t ++ ['"']))
  | emptyArray {gap : List Char} : IsGap gap → Written (.array []) ('[' :: (gap ++ [']']))
  | array {items : List Json} {t : List Char} : Separated Written items t →
      Written (.array items) ('[' :: (t ++ [']']))
  | emptyObject {gap : List Char} : IsGap gap → Written (.object []) ('\x7b' :: (gap ++ ['\x7d']))
  | object {members : List (Units × Json)} {t : List Char} :
      Separated (Keyed Written) members t → Written (.object members) ('\x7b' :: (t ++ ['\x7d']))

def Renders (value : Json) (raw : String) : Prop :=
  ∃ before core after, IsGap before ∧ Written value core ∧ IsGap after ∧
    raw.toList = before ++ (core ++ after)

/-! Strings and what is made of them can be written. -/

theorem isGap_nil : IsGap [] := fun _ h => nomatch h

theorem exists_separated {α : Type} {Part : α → List Char → Prop} {as : List α} (some : as ≠ [])
    (h : ∀ a ∈ as, ∃ core, Part a core) : ∃ t, Separated Part as t := by
  induction as with
  | nil => exact absurd rfl some
  | cons a as ih =>
    obtain ⟨core, part⟩ := h a List.mem_cons_self
    cases as with
    | nil => exact ⟨_, .last isGap_nil part isGap_nil⟩
    | cons b as =>
      obtain ⟨t, others⟩ := ih (List.cons_ne_nil b as) fun a ha => h a (List.mem_cons_of_mem _ ha)
      exact ⟨_, .more isGap_nil part isGap_nil others⟩

theorem exists_written_string (us : Units) : ∃ core, Written (.string us) core := by
  obtain ⟨t, spelled⟩ := exists_spelled us
  exact ⟨_, .string spelled⟩

theorem exists_written_array {items : List Json} (h : ∀ item ∈ items, ∃ core, Written item core) :
    ∃ core, Written (.array items) core := by
  by_cases some : items = []
  · subst some
    exact ⟨_, .emptyArray isGap_nil⟩
  · obtain ⟨t, separated⟩ := exists_separated some h
    exact ⟨_, .array separated⟩

theorem exists_keyed {α : Type} {Part : α → List Char → Prop} {core : List Char} (key : Units)
    {a : α} (h : Part a core) : ∃ t, Keyed Part (key, a) t := by
  obtain ⟨t, spelled⟩ := exists_spelled key
  exact ⟨_, .mk spelled isGap_nil isGap_nil h⟩

theorem exists_written_object {members : List (Units × Json)}
    (h : ∀ member ∈ members, ∃ core, Written member.2 core) :
    ∃ core, Written (.object members) core := by
  by_cases some : members = []
  · subst some
    exact ⟨_, .emptyObject isGap_nil⟩
  · have each : ∀ member ∈ members, ∃ core, Keyed Written member core := by
      rintro ⟨key, value⟩ mem
      obtain ⟨core, written⟩ := h _ mem
      exact exists_keyed key written
    obtain ⟨t, separated⟩ := exists_separated some each
    exact ⟨_, .object separated⟩

theorem Written.renders {value : Json} {core : List Char} (h : Written value core) :
    Renders value (String.ofList core) :=
  ⟨[], core, [], isGap_nil, h, isGap_nil, by simp⟩

/-! A written value is read. -/

theorem readWord?_eq_some {word : String} {cs rest : List Char} :
    readWord? word cs = some rest ↔ cs = word.toList ++ rest := by
  rw [readWord?]
  split
  · rename_i begins
    obtain ⟨more, rfl⟩ := List.isPrefixOf_iff_prefix.mp begins
    rw [List.drop_left, Option.some.injEq, List.append_cancel_left_eq]
  · rename_i other
    simp only [reduceCtorEq, false_iff]
    rintro rfl
    exact other (List.isPrefixOf_iff_prefix.mpr (List.prefix_append ..))

def beginsNumeral (c : Char) : Bool := c == '-' || c.isDigit

theorem IsNumeral.begins {t : List Char} (h : IsNumeral t) :
    ∃ c cs, t = c :: cs ∧ beginsNumeral c = true := by
  obtain ⟨sign, whole, fraction, exponent, listed, hw, _, _, rfl⟩ := h
  obtain ⟨d, ds, rfl, digit⟩ := hw.exists_digit
  simp only [List.mem_cons, List.not_mem_nil, or_false] at listed
  rcases listed with rfl | rfl
  · exact ⟨d, ds ++ fraction ++ exponent, by simp, by simp [beginsNumeral, digit]⟩
  · exact ⟨'-', d :: ds ++ fraction ++ exponent, by simp, by decide⟩

theorem ne_of_beginsNumeral {c d : Char} (hc : beginsNumeral c = true)
    (hd : beginsNumeral d = false) :
    c ≠ d := by
  rintro rfl
  rw [hd] at hc
  cases hc

/-- A value begins where no white space is, and not with a bracket that closes. -/
theorem Written.begins {value : Json} {core : List Char} (h : Written value core) :
    ∃ c cs, core = c :: cs ∧ isGap c = false ∧ c ≠ ']' := by
  cases h with
  | null => exact ⟨'n', "ull".toList, rfl, by decide, by decide⟩
  | bool value =>
    cases value with
    | true => exact ⟨'t', "rue".toList, rfl, by decide, by decide⟩
    | false => exact ⟨'f', "alse".toList, rfl, by decide, by decide⟩
  | number h =>
    obtain ⟨c, cs, rfl, first⟩ := h.begins
    refine ⟨c, cs, rfl, ?_, ne_of_beginsNumeral first (by decide)⟩
    rw [← Bool.not_eq_true, isGap_iff]
    rintro (rfl | rfl | rfl | rfl)
    all_goals exact absurd first (by decide)
  | string => exact ⟨'"', _, rfl, by decide, by decide⟩
  | emptyArray | array => exact ⟨'[', _, rfl, by decide, by decide⟩
  | emptyObject | object => exact ⟨'\x7b', _, rfl, by decide, by decide⟩

theorem readValue?_numeral {n : Nat} {c : Char} (h : beginsNumeral c = true) (cs : List Char) :
    readValue? (n + 1) (c :: cs) = readNumber? (c :: cs) := by
  rw [readValue?]
  all_goals
    rintro cs' heq
    exact absurd (List.cons.inj heq).1 (ne_of_beginsNumeral h (by decide))

theorem readValue?_array {n : Nat} {cs : List Char}
    (h : (skipGap cs).head? ≠ some ']') : readValue? (n + 1) ('[' :: cs) =
    (readItems? n (skipGap cs)).map fun r => (.array r.1, r.2) := by
  rw [readValue?]
  split
  · rename_i closes
    exact absurd (congrArg List.head? closes) h
  · rfl

theorem readValue?_object {n : Nat} {cs : List Char} (h : (skipGap cs).head? ≠ some '\x7d') :
    readValue? (n + 1) ('\x7b' :: cs) = (readMembers? n (skipGap cs)).map fun r =>
      (.object r.1, r.2) := by
  rw [readValue?]
  split
  · rename_i closes
    exact absurd (congrArg List.head? closes) h
  · rfl

theorem Separated.begins {α : Type} {Part : α → List Char → Prop} {as : List α} {t : List Char}
    (h : Separated Part as t) :
    ∃ a before core after, IsGap before ∧ Part a core ∧ t = before ++ (core ++ after) := by
  cases h with
  | last before part _ => exact ⟨_, _, _, _, before, part, rfl⟩
  | more before part _ _ => exact ⟨_, _, _, _, before, part, rfl⟩

/-- The gap in front of a value is skipped, and no more. -/
theorem Written.skipGap {value : Json} {core gap : List Char} (h : Written value core)
    (space : IsGap gap) (rest : List Char) : skipGap (gap ++ (core ++ rest)) = core ++ rest := by
  obtain ⟨c, cs, rfl, begins, _⟩ := h.begins
  rw [skipGap_append space, List.cons_append, skipGap_of_head begins]

theorem skipGap_to {c : Char} {gap : List Char} (space : IsGap gap) (h : isGap c = false)
    (rest : List Char) :
    Json.skipGap (gap ++ c :: rest) = c :: rest := by
  rw [skipGap_append space, skipGap_of_head h]

/-- No numeral goes on into white space, nor over it. -/
theorem gap_ends {gap rest : List Char} (space : IsGap gap)
    (stop : ∀ c ∈ rest.head?, inNumeral c = false) :
    ∀ c ∈ (gap ++ rest).head?, inNumeral c = false := by
  cases gap with
  | nil => exact stop
  | cons c gap =>
    rintro _ ⟨⟩
    rcases space c List.mem_cons_self with rfl | rfl | rfl | rfl
    all_goals decide

/-- With so many steps each text is read that is not longer. -/
structure Reads (n : Nat) : Prop where
  value {value : Json} {core : List Char} : Written value core → core.length ≤ n →
  ∀ rest : List Char,
    (∀ c ∈ rest.head?, inNumeral c = false) → readValue? n (core ++ rest) = some (value, rest)
  items {items : List Json} {t : List Char} : Separated Written items t → t.length < n →
    ∀ rest, readItems? n (skipGap (t ++ ']' :: rest)) = some (items, rest)
  members {members : List (Units × Json)} {t : List Char} : Separated (Keyed Written) members t →
    t.length < n → ∀ rest, readMembers? n (skipGap (t ++ '\x7d' :: rest)) = some (members, rest)

/-- A value is read up to the white space behind it, and the mark that ends it is found. -/
theorem Reads.upTo {n : Nat} (reads : Reads n) {value : Json} {core gap : List Char}
    (h : Written value core) (fuel : core.length ≤ n) (space : IsGap gap) {c : Char}
    (stop : inNumeral c = false) (mark : isGap c = false) (rest : List Char) :
    ∃ more, readValue? n (core ++ (gap ++ c :: rest)) = some (value, more) ∧
      skipGap more = c :: rest := by
  refine ⟨gap ++ c :: rest, reads.value h fuel _ (gap_ends space ?_), skipGap_to space mark rest⟩
  rintro _ ⟨⟩
  exact stop

theorem readItems?_of_separated {n : Nat} (reads : Reads n) {items : List Json} {t : List Char}
    (h : Separated Written items t) (fuel : t.length < n + 1) (rest : List Char) :
    readItems? (n + 1) (skipGap (t ++ ']' :: rest)) = some (items, rest) := by
  cases h with
  | last before written after =>
    simp only [List.length_append] at fuel
    obtain ⟨more, read, closes⟩ := reads.upTo (c := ']') written (by omega) after (by decide)
      (by decide) rest
    simp only [List.append_assoc, written.skipGap before, readItems?, read, closes]
  | @more _ _ _ _ _ t before written after others =>
    simp only [List.length_append, List.length_cons] at fuel
    obtain ⟨more, read, goesOn⟩ :=
      reads.upTo (c := ',') written (by omega) after (by decide) (by decide) (t ++ ']' :: rest)
    simp only [List.append_assoc, List.cons_append, written.skipGap before, readItems?, read,
      goesOn, reads.items others (by omega) rest, Option.map_some]

theorem readMembers?_of_separated {n : Nat} (reads : Reads n) {members : List (Units × Json)}
    {t : List Char} (h : Separated (Keyed Written) members t) (fuel : t.length < n + 1)
    (rest : List Char) :
    readMembers? (n + 1) (skipGap (t ++ '\x7d' :: rest)) = some (members, rest) := by
  have quote : isGap '"' = false := by decide
  have colon : isGap ':' = false := by decide
  cases h with
  | last before keyed after =>
    obtain ⟨spelled, gap, gap', written⟩ := keyed
    simp only [List.length_append, List.length_cons] at fuel
    have key := spelled.read (n := n) (by omega) []
    obtain ⟨more, read, closes⟩ :=
      reads.upTo (c := '\x7d') written (by omega) after (by decide) (by decide) rest
    simp only [List.append_assoc, List.cons_append, skipGap_to before quote, readMembers?, key,
      skipGap_to gap colon, written.skipGap gap', read, closes, List.reverse_nil, List.nil_append]
  | @more _ _ _ _ _ t before keyed after others =>
    obtain ⟨spelled, gap, gap', written⟩ := keyed
    simp only [List.length_append, List.length_cons] at fuel
    have key := spelled.read (n := n) (by omega) []
    obtain ⟨more, read, goesOn⟩ :=
      reads.upTo (c := ',') written (by omega) after (by decide) (by decide) (t ++ '\x7d' :: rest)
    simp only [List.append_assoc, List.cons_append, skipGap_to before quote, readMembers?, key,
      skipGap_to gap colon, written.skipGap gap', read, goesOn,
      reads.members others (by omega) rest, Option.map_some, List.reverse_nil, List.nil_append]

theorem readValue?_of_written {n : Nat} (reads : Reads n) {value : Json} {core : List Char}
    (h : Written value core) (fuel : core.length ≤ n + 1) (rest : List Char)
    (stop : ∀ c ∈ rest.head?, inNumeral c = false) :
    readValue? (n + 1) (core ++ rest) = some (value, rest) := by
  cases h with
  | null => rfl
  | bool value =>
    cases value with
    | true => rfl
    | false => rfl
  | number h =>
    obtain ⟨c, cs, rfl, begins⟩ := h.begins
    rw [List.cons_append, readValue?_numeral begins, ← List.cons_append, h.read stop]
  | string h =>
    simp only [List.length_append, List.length_cons] at fuel
    have read := h.read (n := n) (by omega) [] rest
    simp [readValue?, read]
  | emptyArray gap => simp [readValue?, skipGap_to gap (show isGap ']' = false by decide)]
  | @array _ t h =>
    simp only [List.length_append, List.length_cons] at fuel
    have read := reads.items h (by omega) rest
    have goesOn : (skipGap (t ++ ']' :: rest)).head? ≠ some ']' := by
      obtain ⟨_, _, _, after, gap, written, rfl⟩ := h.begins
      obtain ⟨c, cs, rfl, _, other⟩ := written.begins
      rw [List.append_assoc, List.append_assoc, written.skipGap gap]
      exact fun heq => other (Option.some.inj heq)
    simp [readValue?_array goesOn, read]
  | emptyObject gap => simp [readValue?, skipGap_to gap (show isGap '\x7d' = false by decide)]
  | @object _ t h =>
    simp only [List.length_append, List.length_cons] at fuel
    have read := reads.members h (by omega) rest
    have goesOn : (skipGap (t ++ '\x7d' :: rest)).head? ≠ some '\x7d' := by
      obtain ⟨_, _, _, after, gap, ⟨_, _, _, _⟩, rfl⟩ := h.begins
      simp [skipGap_to gap (show isGap '"' = false by decide)]
    simp [readValue?_object goesOn, read]

theorem reads (n : Nat) : Reads n := by
  -- the three readers call each other with one step less, so their statements go together
  induction n with
  | zero =>
    refine ⟨fun written short => ?_, fun _ short => ?_, fun _ short => ?_⟩
    · obtain ⟨c, cs, rfl, _⟩ := written.begins
      cases short
    · cases short
    · cases short
  | succ n ih =>
    exact ⟨readValue?_of_written ih, readItems?_of_separated ih, readMembers?_of_separated ih⟩

/-! What is read was written. -/

/-- With so many steps nothing is read but texts of values. -/
structure ReadsOnly (n : Nat) : Prop where
  value {cs rest : List Char} {value : Json} : readValue? n cs = some (value, rest) →
    ∃ core, Written value core ∧ cs = core ++ rest
  items {cs rest : List Char} {items : List Json} : readItems? n (skipGap cs) = some (items, rest) →
    ∃ t, Separated Written items t ∧ cs = t ++ ']' :: rest
  members {cs rest : List Char} {members : List (Units × Json)} :
    readMembers? n (skipGap cs) = some (members, rest) →
    ∃ t, Separated (Keyed Written) members t ∧ cs = t ++ '\x7d' :: rest

theorem separated_of_readItems? {n : Nat} (reads : ReadsOnly n) {cs rest : List Char}
    {items : List Json} (h : readItems? (n + 1) (skipGap cs) = some (items, rest)) :
    ∃ t, Separated Written items t ∧ cs = t ++ ']' :: rest := by
  obtain ⟨before, gap, text⟩ := exists_gap cs
  rw [readItems?] at h
  split at h
  · cases h
  · rename_i item more read
    obtain ⟨core, written, heq⟩ := reads.value read
    obtain ⟨after, gap', text'⟩ := exists_gap more
    split at h
    · rename_i closes
      obtain ⟨rfl, rfl⟩ := Prod.mk.inj (Option.some.inj h)
      refine ⟨_, .last gap written gap', ?_⟩
      rw [text, heq, text', closes]
      simp
    · rename_i others goesOn
      obtain ⟨⟨items', rest'⟩, readOthers, same⟩ := Option.map_eq_some_iff.mp h
      obtain ⟨rfl, rfl⟩ := Prod.mk.inj same
      obtain ⟨t, separated, rfl⟩ := reads.items readOthers
      refine ⟨_, .more gap written gap' separated, ?_⟩
      rw [text, heq, text', goesOn]
      simp
    · cases h

theorem separated_of_readMembers? {n : Nat} (reads : ReadsOnly n) {cs rest : List Char}
    {members : List (Units × Json)} (h : readMembers? (n + 1) (skipGap cs) = some (members, rest)) :
    ∃ t, Separated (Keyed Written) members t ∧ cs = t ++ '\x7d' :: rest := by
  obtain ⟨before, gap, text⟩ := exists_gap cs
  rw [readMembers?.eq_def] at h
  split at h
  case h_1 => cases h
  case h_3 => cases h
  case h_2 m cs' succ begins =>
    obtain rfl := Nat.succ.inj succ
    split at h
    · cases h
    · rename_i key afterKey readKey
      obtain ⟨us, t, spelled, rfl, rfl⟩ := spelled_of_readString? readKey
      obtain ⟨between, gap₁, text₁⟩ := exists_gap afterKey
      split at h
      · rename_i afterColon colon
        obtain ⟨between', gap₂, text₂⟩ := exists_gap afterColon
        split at h
        · cases h
        · rename_i value more read
          obtain ⟨core, written, heq⟩ := reads.value read
          obtain ⟨after, gap₃, text₃⟩ := exists_gap more
          have keyed := Keyed.mk spelled gap₁ gap₂ written
          split at h
          · rename_i closes
            obtain ⟨rfl, rfl⟩ := Prod.mk.inj (Option.some.inj h)
            refine ⟨_, .last gap keyed gap₃, ?_⟩
            rw [text, begins, text₁, colon, text₂, heq, text₃, closes]
            simp
          · rename_i others goesOn
            obtain ⟨⟨members', rest'⟩, readOthers, same⟩ := Option.map_eq_some_iff.mp h
            obtain ⟨rfl, rfl⟩ := Prod.mk.inj same
            obtain ⟨t, separated, rfl⟩ := reads.members readOthers
            refine ⟨_, .more gap keyed gap₃ separated, ?_⟩
            rw [text, begins, text₁, colon, text₂, heq, text₃, goesOn]
            simp
          · cases h
      · cases h

theorem written_of_readValue? {n : Nat} (reads : ReadsOnly n) {cs rest : List Char} {value : Json}
    (h : readValue? (n + 1) cs = some (value, rest)) :
    ∃ core, Written value core ∧ cs = core ++ rest := by
  rw [readValue?.eq_def] at h
  split at h
  case h_1 => cases h
  case h_2 m cs succ =>
    obtain rfl := Nat.succ.inj succ
    obtain ⟨⟨s, rest'⟩, read, same⟩ := Option.map_eq_some_iff.mp h
    obtain ⟨rfl, rfl⟩ := Prod.mk.inj same
    obtain ⟨us, t, spelled, rfl, rfl⟩ := spelled_of_readString? read
    exact ⟨_, .string spelled, by simp⟩
  case h_3 m cs succ =>
    obtain rfl := Nat.succ.inj succ
    split at h
    · rename_i closes
      obtain ⟨rfl, rfl⟩ := Prod.mk.inj (Option.some.inj h)
      obtain ⟨gap, space, text⟩ := exists_gap cs
      refine ⟨_, .emptyArray space, ?_⟩
      rw [text, closes]
      simp
    · obtain ⟨⟨items, rest'⟩, read, same⟩ := Option.map_eq_some_iff.mp h
      obtain ⟨rfl, rfl⟩ := Prod.mk.inj same
      obtain ⟨t, separated, rfl⟩ := reads.items read
      exact ⟨_, .array separated, by simp⟩
  case h_4 m cs succ =>
    obtain rfl := Nat.succ.inj succ
    split at h
    · rename_i closes
      obtain ⟨rfl, rfl⟩ := Prod.mk.inj (Option.some.inj h)
      obtain ⟨gap, space, text⟩ := exists_gap cs
      refine ⟨_, .emptyObject space, ?_⟩
      rw [text, closes]
      simp
    · obtain ⟨⟨items, rest'⟩, read, same⟩ := Option.map_eq_some_iff.mp h
      obtain ⟨rfl, rfl⟩ := Prod.mk.inj same
      obtain ⟨t, separated, rfl⟩ := reads.members read
      exact ⟨_, .object separated, by simp⟩
  case h_5 =>
    obtain ⟨rest', read, same⟩ := Option.map_eq_some_iff.mp h
    obtain ⟨rfl, rfl⟩ := Prod.mk.inj same
    exact ⟨_, .bool true, by rw [readWord?_eq_some.mp read]; rfl⟩
  case h_6 =>
    obtain ⟨rest', read, same⟩ := Option.map_eq_some_iff.mp h
    obtain ⟨rfl, rfl⟩ := Prod.mk.inj same
    exact ⟨_, .bool false, by rw [readWord?_eq_some.mp read]; rfl⟩
  case h_7 =>
    obtain ⟨rest', read, same⟩ := Option.map_eq_some_iff.mp h
    obtain ⟨rfl, rfl⟩ := Prod.mk.inj same
    exact ⟨_, .null, by rw [readWord?_eq_some.mp read]; rfl⟩
  case h_8 =>
    obtain ⟨t, numeral, rfl, rfl⟩ := isNumeral_of_readNumber? h
    exact ⟨t, .number numeral, rfl⟩

theorem readsOnly (n : Nat) : ReadsOnly n := by
  induction n with
  | zero => exact ⟨(nomatch ·), (nomatch ·), (nomatch ·)⟩
  | succ n ih =>
    exact ⟨written_of_readValue? ih, separated_of_readItems? ih, separated_of_readMembers? ih⟩

/-- The reader finds a value exactly in the texts of that value. -/
theorem parse?_eq_some_iff {raw : String} {value : Json} :
    parse? raw = some value ↔ Renders value raw := by
  rw [parse?]
  constructor
  · intro h
    split at h
    · rename_i value' rest read
      split at h
      · rename_i ends
        obtain rfl := Option.some.inj h
        obtain ⟨before, gap, text⟩ := exists_gap raw.toList
        obtain ⟨core, written, heq⟩ := (readsOnly _).value read
        exact ⟨before, core, rest, gap, written, skipGap_eq_nil.mp (List.isEmpty_iff.mp ends),
          by rw [text, heq]⟩
      · cases h
    · cases h
  · rintro ⟨before, core, after, gap, written, gap₁, text⟩
    have short : core.length ≤ 2 * raw.toList.length + 1 := by
      rw [text]
      simp only [List.length_append]
      omega
    have stop : ∀ c ∈ after.head?, inNumeral c = false := by
      have ends := gap_ends gap₁ (show ∀ c ∈ ([] : List Char).head?, inNumeral c = false by simp)
      rwa [List.append_nil] at ends
    have read := (reads _).value written short after stop
    have begins : skipGap raw.toList = core ++ after := by rw [text, written.skipGap gap]
    simp only [begins, read, skipGap_eq_nil.mpr gap₁, List.isEmpty_nil, if_true]

end RepoAtlas.Json
