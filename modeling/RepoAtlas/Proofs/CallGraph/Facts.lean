import Mathlib.Data.List.Perm.Basic
import RepoAtlas.CallGraph.Tool
import RepoAtlas.Proofs.Json.Values
import RepoAtlas.Proofs.Table

/-!
Which texts are fact tables. A table is read back from every text that stands for it, a key that is
written several times counts with its last value, and every other text is refused.
-/
namespace RepoAtlas.CallGraph
open Text Json

def stringList (callees : List Units) : Json := .array (callees.map .string)

def memberOf (e : Units × List Units) : Units × Json := (e.1, stringList e.2)

def Report.toJson (facts : Report) : Json := .object (facts.map memberOf)

def lastValue? (members : List (Units × Json)) (key : Units) : Option Json :=
  Table.get? ⟨members.reverse⟩ key

/-- The value that counts for a key is a list of strings, for every key. -/
def Proper (members : List (Units × Json)) : Prop :=
  ∀ key value, lastValue? members key = some value → ∃ callees, value = stringList callees

/-- The call sites are the keys but for one, and the callees their values. -/
structure TableOf (members : List (Units × Json)) (facts : Report) : Prop where
  once : (facts.map (·.1)).Nodup
  mem : ∀ key callees, (key, callees) ∈ facts ↔
    key ≠ units "__proto__" ∧ lastValue? members key = some (stringList callees)

/-- A member that is no call site with its callees, and the place where it is not. -/
inductive Misplaced : Units × Json → Units → Prop where
  | noList {key : Units} {value : Json} : (∀ items, value ≠ .array items) →
        Misplaced (key, value) key
  | noString {key : Units} {items : List Json} {i : Nat} {item : Json} : items[i]? = some item →
      (∀ s, item ≠ .string s) → Misplaced (key, .array items) (key ++ units ("." ++ toString i))

/-- A fault of the text, and the error that names it. -/
inductive Faulty (raw : String) : FactsError → Prop where
  | notJson : (¬ ∃ value, Renders value raw) → Faulty raw .notJson
  | noObject {value : Json} : Renders value raw → (∀ members, value ≠ .object members) →
      Faulty raw (.badShape none)
  | misplaced {members : List (Units × Json)} {key : Units} {value : Json} {place : Units} :
      Renders (.object members) raw → lastValue? members key = some value →
      Misplaced (key, value) place →
      Faulty raw (.badShape (some place))

theorem stringList_injective {as bs : List Units} (h : stringList as = stringList bs) :
    as = bs := by
  rw [stringList, stringList, Json.array.injEq] at h
  exact List.map_injective_iff.mpr (fun _ _ => Json.string.inj) h

theorem memberOf_injective : Function.Injective memberOf := by
  intro e e' h
  obtain ⟨key, callees⟩ := Prod.mk.inj h
  exact Prod.ext key (stringList_injective callees)

theorem keys_memberOf (facts : Report) : (facts.map memberOf).map (·.1) = facts.map (·.1) := by
  rw [List.map_map]
  rfl

theorem exists_of_mem_memberOf {facts : Report} {key : Units} {value : Json}
    (h : (key, value) ∈ facts.map memberOf) : ∃ callees, value = stringList callees := by
  obtain ⟨e, _, same⟩ := List.mem_map.mp h
  exact ⟨e.2, (congrArg Prod.snd same).symm⟩

/-! Reading the members of an object. -/

theorem readCallees_cases (key : Units) (i : Nat) (items : List Json) :
    (∃ callees, items = callees.map .string ∧ readCallees key i items = .ok callees) ∨
      ∃ j item, items[j]? = some item ∧ (∀ s, item ≠ .string s) ∧
        readCallees key i items =
          .error (.badShape (some (key ++ units ("." ++ toString (i + j))))) := by
  induction items generalizing i with
  | nil => exact Or.inl ⟨[], rfl, rfl⟩
  | cons item items ih =>
    cases item with
    | string s =>
      rcases ih (i + 1) with ⟨callees, rfl, read⟩ | ⟨j, item, found, other, read⟩
      · refine Or.inl ⟨s :: callees, rfl, ?_⟩
        rw [readCallees, read]
        rfl
      · refine Or.inr ⟨j + 1, item, found, other, ?_⟩
        rw [readCallees, read, Nat.add_right_comm, Nat.add_assoc]
        rfl
    | _ => exact Or.inr ⟨0, _, rfl, by simp, rfl⟩

theorem readEntry_cases (member : Units × Json) :
    (∃ e, member = memberOf e ∧ readEntry member = .ok e) ∨
      ∃ place, Misplaced member place ∧ readEntry member = .error (.badShape (some place)) := by
  obtain ⟨key, value⟩ := member
  cases value with
  | array items =>
    rcases readCallees_cases key 0 items with ⟨callees, rfl, read⟩ | ⟨i, item, found, other, read⟩
    · refine Or.inl ⟨(key, callees), rfl, ?_⟩
      rw [readEntry, read]
      rfl
    · refine Or.inr ⟨_, .noString found other, ?_⟩
      rw [readEntry, read, Nat.zero_add]
      rfl
  | _ => exact Or.inr ⟨key, .noList (by simp), rfl⟩

/-- All members are read, or the first that is misplaced stops the reader. -/
theorem mapM_readEntry_cases (members : List (Units × Json)) :
    (∃ facts : Report, members = facts.map memberOf ∧ members.mapM readEntry = .ok facts) ∨
      ∃ member ∈ members, ∃ place, Misplaced member place ∧
        members.mapM readEntry = .error (.badShape (some place)) := by
  induction members with
  | nil => exact Or.inl ⟨[], rfl, rfl⟩
  | cons member members ih =>
    rw [List.mapM_cons]
    rcases readEntry_cases member with ⟨e, rfl, first⟩ | ⟨place, misplaced, first⟩
    · rw [first]
      rcases ih with ⟨facts, rfl, others⟩ | ⟨member', mem, place, misplaced, others⟩
      · rw [others]
        exact Or.inl ⟨e :: facts, rfl, rfl⟩
      · rw [others]
        exact Or.inr ⟨member', List.mem_cons_of_mem _ mem, place, misplaced, rfl⟩
    · rw [first]
      exact Or.inr ⟨member, List.mem_cons_self, place, misplaced, rfl⟩

theorem not_misplaced {key place : Units} {callees : List Units} :
    ¬ Misplaced (key, stringList callees) place := by
  intro h
  cases h with
  | noList other => exact other _ rfl
  | noString found other =>
    obtain ⟨s, _, rfl⟩ := List.mem_map.mp (List.mem_of_getElem? found)
    exact other s rfl

/-! The members that count. -/

theorem inPropertyOrder_perm {α : Type} (entries : List (Units × α)) :
    (inPropertyOrder entries).Perm entries := by
  have numbered : (entries.filterMap fun e => (indexKey? e.1).map fun n => (n, e)).map (·.2) =
      entries.filter fun e => (indexKey? e.1).isSome := by
    induction entries with
    | nil => rfl
    | cons e entries ih =>
      cases key : indexKey? e.1 with
      | none => simp [key, ih]
      | some n => simp [key, ih]
  have others : (fun e : Units × α => (indexKey? e.1).isNone) =
      fun e => !(indexKey? e.1).isSome := by
    funext e
    rw [Option.not_isSome]
  unfold inPropertyOrder
  rw [others]
  refine ((List.mergeSort_perm ..).map _ |>.append_right _).trans ?_
  rw [numbered]
  exact List.filter_append_perm ..

/-- The members of an object as they are checked: each key once, with its last value. -/
def counted (members : List (Units × Json)) : List (Units × Json) :=
  inPropertyOrder (Table.ofList members).entries

theorem counted_nodup (members : List (Units × Json)) : ((counted members).map (·.1)).Nodup :=
  ((inPropertyOrder_perm _).map _).nodup_iff.mpr (Table.ofList_keys_nodup members)

theorem mem_counted {members : List (Units × Json)} {key : Units} {value : Json} :
    (key, value) ∈ counted members ↔ lastValue? members key = some value := by
  rw [counted, (inPropertyOrder_perm _).mem_iff,
    ← Table.get?_eq_some_iff (Table.ofList_keys_nodup members), Table.get?_ofList]
  rfl

theorem proper_of_counted {members : List (Units × Json)} {facts : Report}
    (h : counted members = facts.map memberOf) : Proper members := by
  intro key value last
  have mem := mem_counted.mpr last
  rw [h] at mem
  exact exists_of_mem_memberOf mem

theorem tableOf_of_counted {members : List (Units × Json)} {facts : Report}
    (h : counted members = facts.map memberOf) :
    TableOf members (facts.filter fun e => e.1 != units "__proto__") := by
  have keys : (facts.map (·.1)).Nodup := by
    have nodup := counted_nodup members
    rwa [h, keys_memberOf] at nodup
  constructor
  · exact keys.sublist ((List.filter_sublist ..).map _)
  · intro key callees
    rw [← mem_counted, h, List.mem_filter, and_comm]
    apply and_congr
    · simp
    · exact (List.mem_map_of_injective memberOf_injective).symm

/-! The whole text. -/

theorem parse_object {raw : String} {members : List (Units × Json)}
    (rendered : Renders (.object members) raw) :
    Report.parse raw = ((counted members).mapM readEntry).map
      (·.filter fun e => e.1 != units "__proto__") := by
  rw [Report.parse, parse?_eq_some_iff.mpr rendered]
  change ((counted members).mapM readEntry >>= fun entries => pure _) = _
  cases (counted members).mapM readEntry with
  | ok entries => rfl
  | error e => rfl

theorem parse_of_proper {raw : String} {members : List (Units × Json)}
    (rendered : Renders (.object members) raw) (proper : Proper members) :
    ∃ facts, Report.parse raw = .ok facts ∧ TableOf members facts := by
  rcases mapM_readEntry_cases (counted members) with ⟨facts, heq, read⟩ | ⟨⟨key, value⟩, mem, place,
    misplaced, _⟩
  · refine ⟨_, ?_, tableOf_of_counted heq⟩
    rw [parse_object rendered, read]
    rfl
  · obtain ⟨callees, rfl⟩ := proper key value (mem_counted.mp mem)
    exact absurd misplaced not_misplaced

theorem parse_of_not_proper {raw : String}
    (other : ¬ ∃ members, Renders (.object members) raw ∧ Proper members) :
    ∃ e, Report.parse raw = .error e ∧ Faulty raw e := by
  cases parsed : parse? raw with
  | none =>
    refine ⟨.notJson, by rw [Report.parse, parsed], .notJson ?_⟩
    rintro ⟨value, rendered⟩
    rw [parse?_eq_some_iff.mpr rendered] at parsed
    cases parsed
  | some value =>
    have rendered := parse?_eq_some_iff.mp parsed
    cases value with
    | object members =>
      rcases mapM_readEntry_cases (counted members) with
        ⟨facts, heq, _⟩ | ⟨⟨key, value⟩, mem, place, misplaced, read⟩
      · exact absurd ⟨members, rendered, proper_of_counted heq⟩ other
      · refine ⟨.badShape (some place), ?_, .misplaced rendered (mem_counted.mp mem) misplaced⟩
        rw [parse_object rendered, read]
        rfl
    | _ => exact ⟨.badShape none, by rw [Report.parse, parsed], .noObject rendered (by simp)⟩

theorem lastValue?_of_nodup {members : List (Units × Json)} (once : (members.map (·.1)).Nodup)
    {key : Units} {value : Json} :
    lastValue? members key = some value ↔ (key, value) ∈ members := by
  have once' : (Table.keys ⟨members.reverse⟩).Nodup := by
    rw [Table.keys, List.map_reverse, List.nodup_reverse]
    exact once
  rw [← List.mem_reverse]
  exact Table.get?_eq_some_iff once'

/-- A table is the only one of its own members. -/
theorem TableOf.perm {table facts : Report} (h : TableOf (table.map memberOf) facts)
    (once : (table.map (·.1)).Nodup) (kept : units "__proto__" ∉ table.map (·.1)) :
    facts.Perm table := by
  have once' : ((table.map memberOf).map (·.1)).Nodup := by rwa [keys_memberOf]
  apply (List.perm_ext_iff_of_nodup h.once.of_map once.of_map).mpr
  rintro ⟨key, callees⟩
  rw [h.mem, lastValue?_of_nodup once']
  constructor
  · rintro ⟨_, mem⟩
    exact (List.mem_map_of_injective memberOf_injective).mp mem
  · intro mem
    refine ⟨?_, List.mem_map_of_mem mem⟩
    rintro rfl
    exact kept (List.mem_map_of_mem mem)

theorem proper_of_nodup {table : Report} (once : (table.map (·.1)).Nodup) :
    Proper (table.map memberOf) := by
  have once' : ((table.map memberOf).map (·.1)).Nodup := by rwa [keys_memberOf]
  intro key value last
  exact exists_of_mem_memberOf ((lastValue?_of_nodup once').mp last)

theorem Report.exists_text (table : Report) : ∃ raw, Renders table.toJson raw := by
  have strings (callees : List Units) : ∃ core, Written (stringList callees) core := by
    apply exists_written_array
    intro item mem
    obtain ⟨s, _, rfl⟩ := List.mem_map.mp mem
    exact exists_written_string s
  have each : ∀ member ∈ table.map memberOf, ∃ core, Written member.2 core := by
    intro member mem
    obtain ⟨e, _, rfl⟩ := List.mem_map.mp mem
    exact strings e.2
  obtain ⟨core, written⟩ := exists_written_object each
  exact ⟨_, written.renders⟩

/-- Reading accepts the texts of fact tables and no others. Each table has texts and is read back
from all of them; where keys are repeated, the last values count and only they are checked; and a
text that is refused has the fault that the error names. -/
theorem facts_read_exactly :
    (∀ table : Report, (table.map (·.1)).Nodup → units "__proto__" ∉ table.map (·.1) →
      (∃ raw, Renders table.toJson raw) ∧
        ∀ raw, Renders table.toJson raw → ∃ facts, Report.parse raw = .ok facts ∧
          facts.Perm table) ∧
    (∀ raw members, Renders (.object members) raw → Proper members →
      ∃ facts, Report.parse raw = .ok facts ∧ TableOf members facts) ∧
    (∀ raw, (¬ ∃ members, Renders (.object members) raw ∧ Proper members) →
      ∃ e, Report.parse raw = .error e ∧ (ToolError.badFacts e).reason = .invalidOutput ∧
        Faulty raw e) := by
  refine ⟨?_, ?_, ?_⟩
  · intro table once kept
    refine ⟨table.exists_text, ?_⟩
    intro raw rendered
    obtain ⟨facts, read, tableOf⟩ := parse_of_proper rendered (proper_of_nodup once)
    exact ⟨facts, read, tableOf.perm once kept⟩
  · intro raw members rendered proper
    exact parse_of_proper rendered proper
  · intro raw other
    obtain ⟨e, read, faulty⟩ := parse_of_not_proper other
    exact ⟨e, read, rfl, faulty⟩

/-- One letter, escaped as a code unit. -/
theorem spelled_escape : Spelled [97] "\\u0061".toList :=
  .unit (@UnitText.mk 0 0 6 1 '0' '0' '6' '1' (.inl rfl) (.inl rfl) (.inl rfl) (.inl rfl)) .done

/-- One character, escaped as a pair of code units. -/
theorem spelled_pair : Spelled (units "😀") "\\uD83D\\ude00".toList :=
  .unit (@UnitText.mk 13 8 3 13 'D' '8' '3' 'D' (.inr rfl) (.inl rfl) (.inl rfl) (.inr rfl))
    (.unit (@UnitText.mk 13 14 0 0 'd' 'e' '0' '0' (.inl rfl) (.inl rfl) (.inl rfl) (.inl rfl))
      .done)

/-- Half of a pair, which is a key like any other. -/
theorem spelled_half : Spelled [0xD800] "\\ud800".toList :=
  .unit (@UnitText.mk 13 8 0 0 'd' '8' '0' '0' (.inl rfl) (.inl rfl) (.inl rfl) (.inl rfl)) .done

theorem renders_escaped :
    Renders (Report.toJson [([97], [units "😀"]), ([0xD800], [])])
      "\x7b \"\\u0061\":[\"\\uD83D\\ude00\"],\"\\ud800\":[]\x7d" := by
  have callees := Written.array (.last isGap_nil (.string spelled_pair) isGap_nil)
  have space : IsGap [' '] := List.forall_mem_singleton.mpr (.inl rfl)
  have first := Keyed.mk spelled_escape isGap_nil isGap_nil callees
  have second := Keyed.mk spelled_half isGap_nil isGap_nil (Written.emptyArray isGap_nil)
  have table := Written.object (.more space first isGap_nil (.last isGap_nil second isGap_nil))
  exact ⟨[], _, [], isGap_nil, table, isGap_nil, by decide⟩

theorem renders_repeated :
    Renders (.object [([97], .number "1"), ([97], stringList [])])
      "\x7b\"a\":1,\"\\u0061\":[]\x7d" := by
  have one : IsNumeral ['1'] :=
    ⟨[], ['1'], [], [], by simp, .inr ⟨⟨by simp, by simp⟩, by simp⟩, .inl rfl, .inl rfl, rfl⟩
  have key : Spelled [97] ['a'] := @Spelled.plain 'a' _ _ (by decide) (by decide) (by decide) .done
  have first := Keyed.mk key isGap_nil isGap_nil (Written.number one)
  have second := Keyed.mk spelled_escape isGap_nil isGap_nil (Written.emptyArray isGap_nil)
  have members :=
    Written.object (.more isGap_nil first isGap_nil (.last isGap_nil second isGap_nil))
  exact ⟨[], _, [], isGap_nil, members, isGap_nil, by decide⟩

theorem proper_repeated (key : Units) (value : Json) (callees : List Units) :
    Proper [(key, value), (key, stringList callees)] := by
  intro key' value' last
  rw [lastValue?, Table.get?, List.reverse_cons, List.reverse_singleton, List.singleton_append,
    Table.lookup_cons_if] at last
  split at last
  · exact ⟨callees, (Option.some.inj last).symm⟩
  · rename_i other
    rw [Table.lookup_cons_if, if_neg other] at last
    cases last

theorem escaped_and_repeated_facts_read :
    (∃ facts, Report.parse "\x7b \"\\u0061\":[\"\\uD83D\\ude00\"],\"\\ud800\":[]\x7d" = .ok facts ∧
      facts.Perm [([97], [units "😀"]), ([0xD800], [])]) ∧
    ∃ facts, Report.parse "\x7b\"a\":1,\"\\u0061\":[]\x7d" = .ok facts ∧
      TableOf [([97], .number "1"), ([97], stringList [])] facts := by
  constructor
  · exact (facts_read_exactly.1 _ (by decide) (by decide)).2 _ renders_escaped
  · exact facts_read_exactly.2.1 _ _ renders_repeated (proper_repeated _ _ _)

end RepoAtlas.CallGraph
