import MiniLox.Node.Decoding
import MiniLox.Proofs.Action
import MiniLox.Proofs.Numeric.Rounding
import MiniLox.Proofs.Text.Plain

/-!
# Why data is no tree

A tree is read from data in one order, and the first step that fails is the failure of the
whole.  Nearly every failure tells that the data is malformed.  One does not: where the value of
a literal belongs there may be a whole number for which there is no floating-point number.
-/

namespace MiniLox

/-- Whether a failure tells that the data is malformed, and not that a number overflows. -/
def LoadFault.isMalformed : LoadFault → Bool
  | .outOfRange => false
  | _ => true

open Numeric in
/-- A whole number overflows if it is half a step beyond the greatest floating-point number, or
more. -/
theorem Number.isFinite_ofInt_eq_false_iff (i : Int) :
    (Number.ofInt i).isFinite = false ↔ 2 ^ 1024 ≤ i.natAbs + 2 ^ 970 := by
  have hround := @Format.round_one_lt_iff Format.double i.natAbs 970 (by decide)
  have hlimit : (Format.double.scale + 1 + 970 + 2) * 2 ^ (Format.double.precision - 1) =
      Format.double.limit := rfl
  have hexponent : Format.double.precision + 1 + 970 = 1024 := rfl
  rw [hlimit, hexponent] at hround
  rw [← Nat.not_lt, ← hround, ofInt, ofRatio, ofCode]
  split
  · next hlt => exact iff_of_false nofun (not_not_intro hlt)
  · next hnot => exact iff_of_true rfl hnot

namespace Node

variable {α β : Type} {members : List (Text × Json)} {fault : LoadFault} {j : Json}

/-! ## Reading without the result -/

/-- Whether reading succeeds, and why it does not, without what is read. -/
def tried (x : Except LoadFault α) : Except LoadFault Unit := x.map fun _ => ()

theorem tried_eq_error_iff {x : Except LoadFault α} :
    tried x = .error fault ↔ x = .error fault := by
  cases x with
  | ok a => exact iff_of_false nofun nofun
  | error e => exact ⟨fun h => congrArg _ (Except.error.inj h), fun h => congrArg tried h⟩

theorem tried_eq_ok_iff {x : Except LoadFault α} : tried x = .ok () ↔ ∃ a, x = .ok a := by
  cases x with
  | ok a => exact iff_of_true rfl ⟨a, rfl⟩
  | error e => exact iff_of_false nofun nofun

/-- Reading in two steps, where what is tried in the second does not depend on the result of the
first. -/
theorem tried_bind {x : Except LoadFault α} {f : α → Except LoadFault β}
    {next : Except LoadFault Unit} (h : ∀ a, tried (f a) = next) :
    tried (x >>= f) = tried x >>= fun _ => next := by
  cases x with
  | ok a => exact h a
  | error e => rfl

/-- Steps in a row fail as the first of them that fails. -/
theorem forM_eq_error_iff {step : α → Except LoadFault Unit} {steps : List α} :
    forM steps step = .error fault ↔
      ∃ before s after, steps = before ++ s :: after ∧ (∀ b ∈ before, step b = .ok ()) ∧
        step s = .error fault := by
  induction steps with
  | nil =>
      refine iff_of_false nofun ?_
      rintro ⟨before, s, after, h, -⟩
      exact List.append_ne_nil_of_right_ne_nil before (List.cons_ne_nil s after) h.symm
  | cons s rest ih =>
      rw [List.forM_cons]
      constructor
      · intro h
        rcases error_of_bind h with hfirst | ⟨_, hfirst, hrest⟩
        · exact ⟨[], s, rest, rfl, nofun, hfirst⟩
        · obtain ⟨before, t, after, rfl, hbefore, ht⟩ := ih.mp hrest
          exact ⟨s :: before, t, after, rfl, List.forall_mem_cons.mpr ⟨hfirst, hbefore⟩, ht⟩
      · rintro ⟨before, t, after, hsplit, hbefore, ht⟩
        cases before with
        | nil =>
            obtain ⟨rfl, -⟩ := List.cons.inj hsplit
            rw [ht]
            rfl
        | cons b before =>
            obtain ⟨rfl, hrest⟩ := List.cons.inj hsplit
            obtain ⟨hb, hbefore⟩ := List.forall_mem_cons.mp hbefore
            rw [hb]
            exact ih.mpr ⟨before, t, after, hrest, hbefore, ht⟩

theorem tried_decodeAll (items : List Json) :
    tried (decodeAll items) = forM items fun j => tried (decode j) := by
  induction items with
  | nil =>
      rw [decodeAll]
      rfl
  | cons j rest ih =>
      rw [decodeAll, List.forM_cons, ← ih]
      refine tried_bind fun n => ?_
      cases decodeAll rest <;> rfl

/-! ## Members in their order -/

/-- What is read from a member of an object. -/
inductive Field where
  /-- The value of a literal. -/
  | value (name : String)
  | token (name : String)
  /-- A node, which may be left out unless it is required. -/
  | child (name : String) (required : Bool)
  /-- The statements of a block. -/
  | statements (name : String)

/-- The members of a node of a kind, in the order in which they are read. -/
def fields? : String → Option (List Field)
  | "Literal" => some [.value "value"]
  | "Grouping" => some [.child "expression" true]
  | "Unary" => some [.token "operator", .child "right" true]
  | "Binary" => some [.child "left" true, .token "operator", .child "right" true]
  | "Variable" => some [.token "name"]
  | "Assign" => some [.token "name", .child "value" true]
  | "ExprStmt" | "PrintStmt" => some [.child "expr" true]
  | "VarStmt" => some [.token "name", .child "initializer" false]
  | "Block" => some [.statements "statements"]
  | _ => none

/-- Reads what is asked of a member. -/
def Field.read (members : List (Text × Json)) : Field → Except LoadFault Unit
  | .value name => tried (part name members >>= fun j => Value.decode j)
  | .token name => tried (mark name members)
  | .child name true => tried (Node.child name members)
  | .child name false =>
    match Json.find? name members with
    | some j => tried (decode j)
    | none => .ok ()
  | .statements name => tried (part name members >>= fun j => children j)

/-- The kind of node that an object is, if it is a kind at all. -/
def fieldsOf (members : List (Text × Json)) : Option (List Field) :=
  ((Json.find? "node" members).bind Json.string?).bind fields?

theorem tried_decode_object {fields : List Field} (h : fieldsOf members = some fields) :
    tried (decode (.object members)) = forM fields (Field.read members) := by
  obtain ⟨kind, hkind, hfields⟩ := Option.bind_eq_some_iff.mp h
  rw [decode, hkind]
  unfold fields? at hfields
  split at hfields <;> cases hfields <;> simp only [List.forM_cons, List.forM_nil, Field.read]
  · exact (congrArg tried (bind_assoc _ _ _).symm).trans (tried_bind fun _ => rfl)
  · exact tried_bind fun _ => rfl
  · exact tried_bind fun _ => tried_bind fun _ => rfl
  · exact tried_bind fun _ => tried_bind fun _ => tried_bind fun _ => rfl
  · exact tried_bind fun _ => rfl
  · exact tried_bind fun _ => tried_bind fun _ => rfl
  · exact tried_bind fun _ => rfl
  · exact tried_bind fun _ => rfl
  · refine tried_bind fun name => ?_
    split
    · next hj =>
      rw [hj]
      rfl
    · next hj =>
      rw [hj]
      exact tried_bind fun _ => rfl
  · exact (congrArg tried (bind_assoc _ _ _).symm).trans (tried_bind fun _ => rfl)

theorem decode_of_fieldsOf_eq_none (h : fieldsOf members = none) :
    ∃ kind, decode (.object members) = .error (.naming .unknownNode kind) := by
  rw [decode]
  rw [fieldsOf] at h
  split
  case h_11 => exact ⟨_, rfl⟩
  all_goals
    next hkind =>
      rw [hkind] at h
      cases h

/-! ## Numbers out of range -/

/-- What names the data that it is about tells of no number. -/
theorem naming_ne_outOfRange {name : Json → LoadFault} (h : ∀ j, name j ≠ .outOfRange) :
    LoadFault.naming name j ≠ .outOfRange := by
  rw [LoadFault.naming]
  split
  · exact h j
  · exact nofun

theorem toText_ne_outOfRange : j.toText ≠ .error .outOfRange := by
  rw [Json.toText]
  split <;> exact nofun

theorem string?_eq_some_iff {s : String} : j.string? = some s ↔ j = .text s := by
  constructor
  · intro h
    unfold Json.string? at h
    split at h
    · rw [Text.plain?_eq_some_iff.mp h]
    · cases h
  · rintro rfl
    exact Text.plain?_ofString s

theorem member_ne_outOfRange {name : String} : j.member name ≠ .error .outOfRange := by
  unfold Json.member
  split
  · split <;> exact nofun
  · exact nofun

theorem toNumber_eq_outOfRange_iff :
    j.toNumber = .error .outOfRange ↔
      ∃ i, (Number.ofInt i).isFinite = false ∧ j = .whole i := by
  constructor
  · intro h
    unfold Json.toNumber at h
    split at h
    · cases h
    · next i =>
      split at h
      · cases h
      · next hi => exact ⟨i, Bool.eq_false_iff.mpr hi, rfl⟩
    · cases h
    · split at h <;> cases h
    · cases h
  · rintro ⟨i, hi, rfl⟩
    rw [Json.toNumber, hi]
    rfl

/-- The data of a literal of a number, whose value is a whole number. -/
def IsWholeLiteral (i : Int) (j : Json) : Prop :=
  j.member "kind" = .ok (.text "number") ∧ j.member "value" = .ok (.whole i)

theorem decodeValue_eq_outOfRange_iff :
    Value.decode j = .error .outOfRange ↔
      ∃ i, (Number.ofInt i).isFinite = false ∧ IsWholeLiteral i j := by
  constructor
  · intro h
    rcases error_of_bind h with hkind | ⟨kind, hkind, h⟩
    · exact absurd hkind member_ne_outOfRange
    split at h
    · rcases error_of_bind h with hvalue | ⟨_, -, h⟩
      · exact absurd hvalue member_ne_outOfRange
      · cases h
    · next htext =>
      rcases error_of_bind h with hvalue | ⟨value, hvalue, h⟩
      · exact absurd hvalue member_ne_outOfRange
      rcases error_of_bind h with hnumber | ⟨_, -, h⟩
      · obtain ⟨i, hi, rfl⟩ := toNumber_eq_outOfRange_iff.mp hnumber
        refine ⟨i, hi, ?_, hvalue⟩
        rw [← string?_eq_some_iff.mp htext]
        exact hkind
      · cases h
    · rcases error_of_bind h with hvalue | ⟨_, -, h⟩
      · exact absurd hvalue member_ne_outOfRange
      rcases error_of_bind h with htext | ⟨_, -, h⟩
      · exact absurd htext toText_ne_outOfRange
      · cases h
    · cases h
    · exact absurd (Except.error.inj h) (naming_ne_outOfRange nofun)
  · rintro ⟨i, hi, hkind, hvalue⟩
    have hnumber := toNumber_eq_outOfRange_iff.mpr ⟨i, hi, rfl⟩
    rw [Value.decode, bind_of_ok hkind, string?_eq_some_iff.mpr rfl]
    exact (bind_of_ok hvalue).trans (bind_of_error hnumber)

theorem mark_ne_outOfRange {name : String} : mark name members ≠ .error .outOfRange := by
  intro h
  rcases error_of_bind h with hpart | ⟨j, -, h⟩
  · unfold part at hpart
    split at hpart <;> cases hpart
  rcases error_of_bind h with htype | ⟨type, -, h⟩
  · exact absurd htype member_ne_outOfRange
  rcases error_of_bind h with hkind | ⟨kind, -, h⟩
  · unfold TokenKind.decode at hkind
    split at hkind
    · split at hkind <;> cases hkind
    · cases hkind
    · cases hkind
    · exact absurd (Except.error.inj hkind) (naming_ne_outOfRange nofun)
  · split at h <;> cases h

theorem part_bind_eq_outOfRange_iff {name : String} {next : Json → Except LoadFault α} :
    (part name members >>= fun j => next j) = .error .outOfRange ↔
      ∃ j, Json.find? name members = some j ∧ next j = .error .outOfRange := by
  unfold part
  split
  · next j hj =>
    refine ⟨fun h => ⟨j, hj, h⟩, fun ⟨_, hsame, h⟩ => ?_⟩
    cases hj.symm.trans hsame
    exact h
  · next hnone =>
    refine iff_of_false nofun ?_
    rintro ⟨_, hsome, -⟩
    cases hnone.symm.trans hsome

theorem child_eq_outOfRange_iff {name : String} :
    child name members = .error .outOfRange ↔
      ∃ j, Json.find? name members = some j ∧ decode j = .error .outOfRange := by
  rw [child]
  exact part_bind_eq_outOfRange_iff

theorem decode_array_eq_error_iff {items : List Json} :
    decode (.array items) = .error fault ↔ decodeAll items = .error fault := by
  rw [decode]
  constructor
  · intro h
    rcases error_of_bind h with h | ⟨_, -, h⟩
    · exact h
    · cases h
  · exact bind_of_error

theorem children_eq_outOfRange_iff :
    children j = .error .outOfRange ↔
      ∃ items, j = .array items ∧ decode (.array items) = .error .outOfRange := by
  constructor
  · intro h
    rw [children.eq_def] at h
    split at h
    · next items => exact ⟨items, rfl, decode_array_eq_error_iff.mpr h⟩
    · split at h <;> cases h
    · split at h <;> cases h
    · cases h
  · rintro ⟨items, rfl, h⟩
    rw [children]
    exact decode_array_eq_error_iff.mp h

/-! ## Coming to a number -/

/-- Reading an object comes to a member: all members that are read before it can be read. -/
def ComesToField (members : List (Text × Json)) (f : Field) : Prop :=
  ∃ before after, fieldsOf members = some (before ++ f :: after) ∧
    ∀ g ∈ before, g.read members = .ok ()

/-- Reading comes to the conversion of a whole number to a floating-point number. -/
inductive ComesTo (i : Int) : Json → Prop
  | item {before after : List Json} {j : Json} (hbefore : ∀ b ∈ before, ∃ n, decode b = .ok n)
      (h : ComesTo i j) : ComesTo i (.array (before ++ j :: after))
  | value {members : List (Text × Json)} {name : String} {j : Json}
      (hfield : ComesToField members (.value name)) (hj : Json.find? name members = some j)
      (h : IsWholeLiteral i j) : ComesTo i (.object members)
  | child {members : List (Text × Json)} {name : String} {required : Bool} {j : Json}
      (hfield : ComesToField members (.child name required))
      (hj : Json.find? name members = some j) (h : ComesTo i j) : ComesTo i (.object members)
  | statement {members : List (Text × Json)} {name : String} {items : List Json}
      (hfield : ComesToField members (.statements name))
      (hitems : Json.find? name members = some (.array items)) (h : ComesTo i (.array items)) :
      ComesTo i (.object members)

theorem decode_array_of_item {before after : List Json}
    (hbefore : ∀ b ∈ before, ∃ n, decode b = .ok n) (h : decode j = .error fault) :
    decode (.array (before ++ j :: after)) = .error fault := by
  rw [decode_array_eq_error_iff, ← tried_eq_error_iff, tried_decodeAll, forM_eq_error_iff]
  exact ⟨before, j, after, rfl, fun b hb => tried_eq_ok_iff.mpr (hbefore b hb),
    tried_eq_error_iff.mpr h⟩

theorem ComesToField.decode_eq {f : Field} (hfield : ComesToField members f)
    (h : f.read members = .error fault) : decode (.object members) = .error fault := by
  obtain ⟨before, after, hfields, hbefore⟩ := hfield
  rw [← tried_eq_error_iff, tried_decode_object hfields, forM_eq_error_iff]
  exact ⟨before, f, after, rfl, hbefore, h⟩

theorem ComesTo.decode_eq {i : Int} (h : ComesTo i j) (hi : (Number.ofInt i).isFinite = false) :
    decode j = .error .outOfRange := by
  induction h with
  | item hbefore _ ih => exact decode_array_of_item hbefore ih
  | value hfield hj hliteral =>
      refine hfield.decode_eq (tried_eq_error_iff.mpr ?_)
      exact part_bind_eq_outOfRange_iff.mpr
        ⟨_, hj, decodeValue_eq_outOfRange_iff.mpr ⟨i, hi, hliteral⟩⟩
  | @child _ _ required _ hfield hj _ ih =>
      refine hfield.decode_eq ?_
      cases required with
      | true => exact tried_eq_error_iff.mpr (child_eq_outOfRange_iff.mpr ⟨_, hj, ih⟩)
      | false =>
          rw [Field.read, hj]
          exact tried_eq_error_iff.mpr ih
  | statement hfield hitems _ ih =>
      refine hfield.decode_eq (tried_eq_error_iff.mpr ?_)
      exact part_bind_eq_outOfRange_iff.mpr
        ⟨_, hitems, children_eq_outOfRange_iff.mpr ⟨_, rfl, ih⟩⟩

theorem exists_comesTo (h : decode j = .error .outOfRange) :
    ∃ i, (Number.ofInt i).isFinite = false ∧ ComesTo i j := by
  induction hsize : sizeOf j using Nat.strongRecOn generalizing j with
  | ind size ih =>
      subst hsize
      cases j with
      | array items =>
          rw [decode_array_eq_error_iff, ← tried_eq_error_iff, tried_decodeAll,
            forM_eq_error_iff] at h
          obtain ⟨before, j, after, rfl, hbefore, hj⟩ := h
          have hlt : sizeOf j < sizeOf (before ++ j :: after) :=
            List.sizeOf_lt_of_mem (List.mem_append_right _ List.mem_cons_self)
          rw [Json.array.sizeOf_spec] at ih
          obtain ⟨i, hi, hcomes⟩ := ih _ (by omega) (tried_eq_error_iff.mp hj) rfl
          exact ⟨i, hi, .item (fun b hb => tried_eq_ok_iff.mp (hbefore b hb)) hcomes⟩
      | object members =>
          rw [Json.object.sizeOf_spec] at ih
          cases hfields : fieldsOf members with
          | none =>
              obtain ⟨kind, hkind⟩ := decode_of_fieldsOf_eq_none hfields
              rw [hkind] at h
              exact absurd (Except.error.inj h) (naming_ne_outOfRange nofun)
          | some fields =>
              rw [← tried_eq_error_iff, tried_decode_object hfields, forM_eq_error_iff] at h
              obtain ⟨before, f, after, rfl, hbefore, hf⟩ := h
              have hfield : ComesToField members f := ⟨before, after, hfields, hbefore⟩
              cases f with
              | value name =>
                  obtain ⟨j, hj, hvalue⟩ :=
                    part_bind_eq_outOfRange_iff.mp (tried_eq_error_iff.mp hf)
                  obtain ⟨i, hi, hliteral⟩ := decodeValue_eq_outOfRange_iff.mp hvalue
                  exact ⟨i, hi, .value hfield hj hliteral⟩
              | token name => exact absurd (tried_eq_error_iff.mp hf) mark_ne_outOfRange
              | child name required =>
                  have hread : ∃ j, Json.find? name members = some j ∧
                      decode j = .error .outOfRange := by
                    cases required with
                    | true => exact child_eq_outOfRange_iff.mp (tried_eq_error_iff.mp hf)
                    | false =>
                        rw [Field.read] at hf
                        cases hj : Json.find? name members with
                        | none =>
                            rw [hj] at hf
                            cases hf
                        | some j =>
                            rw [hj] at hf
                            exact ⟨j, rfl, tried_eq_error_iff.mp hf⟩
                  obtain ⟨j, hj, hchild⟩ := hread
                  have hlt := Json.sizeOf_lt_of_find? hj
                  obtain ⟨i, hi, hcomes⟩ := ih _ (by omega) hchild rfl
                  exact ⟨i, hi, .child hfield hj hcomes⟩
              | statements name =>
                  obtain ⟨j, hj, hchildren⟩ :=
                    part_bind_eq_outOfRange_iff.mp (tried_eq_error_iff.mp hf)
                  obtain ⟨items, rfl, hitems⟩ := children_eq_outOfRange_iff.mp hchildren
                  have hlt := Json.sizeOf_lt_of_find? hj
                  obtain ⟨i, hi, hcomes⟩ := ih _ (by omega) hitems rfl
                  exact ⟨i, hi, .statement hfield hj hcomes⟩
      | _ =>
          rw [decode.eq_def] at h
          cases h

/-- Reading overflows if and only if it comes to a whole number beyond the floating-point
numbers. -/
theorem decode_eq_outOfRange_iff :
    decode j = .error .outOfRange ↔
      ∃ i : Int, 2 ^ 1024 ≤ i.natAbs + 2 ^ 970 ∧ ComesTo i j := by
  constructor
  · intro h
    obtain ⟨i, hi, hcomes⟩ := exists_comesTo h
    exact ⟨i, (Number.isFinite_ofInt_eq_false_iff i).mp hi, hcomes⟩
  · rintro ⟨i, hi, hcomes⟩
    exact hcomes.decode_eq ((Number.isFinite_ofInt_eq_false_iff i).mpr hi)

/-- A failure to read a tree tells that the data is malformed, unless reading comes to a whole
number beyond the floating-point numbers. -/
theorem failures_malformed_iff (j : Json) :
    (∀ fault, decode j = .error fault → fault.isMalformed = true) ↔
      ∀ i : Int, ComesTo i j → i.natAbs + 2 ^ 970 < 2 ^ 1024 := by
  constructor
  · intro h i hcomes
    rcases Nat.lt_or_ge (i.natAbs + 2 ^ 970) (2 ^ 1024) with hlt | hge
    · exact hlt
    · have hfails := decode_eq_outOfRange_iff.mpr ⟨i, hge, hcomes⟩
      exact absurd (h _ hfails) Bool.false_ne_true
  · intro h fault hfault
    cases fault with
    | outOfRange =>
        obtain ⟨i, hi, hcomes⟩ := decode_eq_outOfRange_iff.mp hfault
        exact absurd (h i hcomes) (Nat.not_lt.mpr hi)
    | _ => rfl

/-- A literal whose value is two to the power of 1024. -/
def hugeLiteral : Json :=
  tagged "Literal" [("value", .object [("kind", .text "number"), ("value", .whole (2 ^ 1024))])]

theorem hugeLiteral_not_malformed :
    ∃ fault, decode hugeLiteral = .error fault ∧ fault.isMalformed = false := by
  have hcomes : ComesTo (2 ^ 1024) hugeLiteral := .value ⟨[], [], rfl, nofun⟩ rfl ⟨rfl, rfl⟩
  exact ⟨.outOfRange, hcomes.decode_eq (by decide +kernel), rfl⟩

end Node

end MiniLox
