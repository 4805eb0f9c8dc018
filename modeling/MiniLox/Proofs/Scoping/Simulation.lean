import MiniLox.Proofs.Evaluation
import MiniLox.Proofs.Scoping.Flattening

/-!
# Lexical scoping is static

A program and its flattening run in step.  The invariant relates the chain of scopes
to the single scope of the flat program: the scope of every block around the current
place holds exactly the names that the block has declared so far, with the values that
their new spellings have in the flat scope, and the outermost scope agrees with the
flat one on every name that is no new spelling.
-/

namespace MiniLox

namespace Scoping

/-- The scope of a block holds the names that the block has declared, with the values of
their new spellings. -/
structure HoldsFrame (fresh : Nat → String → String) (flat : Scope) (f : Frame) (s : Scope) :
    Prop where
  declared : ∀ x ∈ f.declared, s.get? (.text x) = flat.get? (.text (fresh f.block x))
  bound : ∀ x ∈ f.declared, (flat.get? (.text (fresh f.block x))).isSome
  only : ∀ x ∉ f.declared, s.get? (.text x) = none

/-- A chain of scopes and a flat scope agree about the blocks around a place. -/
def Holds (fresh : Nat → String → String) (flat : Scope) : List Frame → List Scope → Prop
  | [], [globals] =>
    ∀ key : Key, (∀ b x, key ≠ .text (fresh b x)) → globals.get? key = flat.get? key
  | f :: frames, s :: scopes => HoldsFrame fresh flat f s ∧ Holds fresh flat frames scopes
  | _, _ => False

/-- A supply of new spellings: different ones for different blocks and names. -/
def Separates (fresh : Nat → String → String) : Prop :=
  ∀ {b c x y}, fresh b x = fresh c y → b = c ∧ x = y

/-- A name that is no new spelling. -/
def IsOld (fresh : Nat → String → String) (x : String) : Prop := ∀ b y, x ≠ fresh b y

variable {fresh : Nat → String → String} {flat : Scope} {frames : List Frame}
  {scopes : List Scope} {f : Frame} {s : Scope} {x : String} {v : Value}

/-! ## Names in the chain and in the flat scope -/

/-- The spelling under which the flat program uses a name. -/
def spelling (fresh : Nat → String → String) (frames : List Frame) (x : String) : String :=
  (spelling? fresh frames x).getD x

theorem spelling_cons_of_mem (h : x ∈ f.declared) :
    spelling fresh (f :: frames) x = fresh f.block x := by
  rw [spelling, spelling?, List.find?_cons_of_pos (by simpa using h)]
  rfl

theorem spelling_cons_of_not_mem (h : x ∉ f.declared) :
    spelling fresh (f :: frames) x = spelling fresh frames x := by
  rw [spelling, spelling?, List.find?_cons_of_neg (by simpa using h)]
  rfl

/-- A name has in the chain the value that its spelling has in the flat scope. -/
theorem Holds.get? (h : Holds fresh flat frames scopes) (hx : IsOld fresh x) :
    scopes.findSome? (Scope.get? (.text x)) = flat.get? (.text (spelling fresh frames x)) := by
  induction frames generalizing scopes with
  | nil =>
      match scopes with
      | [globals] =>
          have hglobals := h (.text x) (fun b y heq => hx b y (Key.text_inj heq))
          rw [List.findSome?_singleton, hglobals]
          rfl
  | cons f frames ih =>
      match scopes with
      | s :: scopes =>
          obtain ⟨hframe, hrest⟩ := h
          by_cases hmem : x ∈ f.declared
          · obtain ⟨w, hw⟩ := Option.isSome_iff_exists.mp (hframe.bound x hmem)
            rw [spelling_cons_of_mem hmem, List.findSome?_cons, hframe.declared x hmem, hw]
          · rw [spelling_cons_of_not_mem hmem, List.findSome?_cons, hframe.only x hmem]
            exact ih hrest

/-- The scope of a block does not notice what happens to other spellings. -/
theorem HoldsFrame.frame (h : HoldsFrame fresh flat f s) {name : String}
    (hname : ∀ x ∈ f.declared, fresh f.block x ≠ name) :
    HoldsFrame fresh (flat.bind (.text name) v) f s := by
  have hget : ∀ x ∈ f.declared, (flat.bind (.text name) v).get? (.text (fresh f.block x)) =
      flat.get? (.text (fresh f.block x)) := by
    intro x hx
    exact Scope.get?_bind_of_ne fun heq => hname x hx (Key.text_inj heq)
  constructor
  · intro x hx
    rw [hget x hx]
    exact h.declared x hx
  · intro x hx
    rw [hget x hx]
    exact h.bound x hx
  · exact h.only

/-- A name gets a value in the scope of a block when its new spelling does. -/
theorem HoldsFrame.bind (hsep : Separates fresh) (h : HoldsFrame fresh flat f s)
    {declared : List String} (hdeclared : ∀ y, y ∈ declared ↔ y = x ∨ y ∈ f.declared) :
    HoldsFrame fresh (flat.bind (.text (fresh f.block x)) v) ⟨f.block, declared⟩
      (s.bind (.text x) v) := by
  have hkey : ∀ y, y ≠ x → (Key.text (fresh f.block y)) ≠ .text (fresh f.block x) :=
    fun y hy heq => hy (hsep (Key.text_inj heq)).2
  have hne : ∀ y, y ≠ x → Key.text y ≠ .text x := fun y hy heq => hy (Key.text_inj heq)
  constructor
  · intro y hy
    by_cases hyx : y = x
    · rw [hyx, Scope.get?_bind_self, Scope.get?_bind_self]
    · rw [Scope.get?_bind_of_ne (hne y hyx), Scope.get?_bind_of_ne (hkey y hyx)]
      exact h.declared y (((hdeclared y).mp hy).resolve_left hyx)
  · intro y hy
    by_cases hyx : y = x
    · rw [hyx, Scope.get?_bind_self]
      rfl
    · rw [Scope.get?_bind_of_ne (hkey y hyx)]
      exact h.bound y (((hdeclared y).mp hy).resolve_left hyx)
  · intro y hy
    have hnot := (not_congr (hdeclared y)).mp hy
    have hyx : y ≠ x := fun heq => hnot (Or.inl heq)
    rw [Scope.get?_bind_of_ne (hne y hyx)]
    exact h.only y fun hmem => hnot (Or.inr hmem)

/-- What happens to the new spellings of a block does not concern the blocks around it. -/
theorem Holds.frame (hsep : Separates fresh) (h : Holds fresh flat frames scopes) {block : Nat}
    (hblock : ∀ f ∈ frames, f.block ≠ block) :
    Holds fresh (flat.bind (.text (fresh block x)) v) frames scopes := by
  induction frames generalizing scopes with
  | nil =>
      match scopes with
      | [globals] =>
          intro key hkey
          rw [Scope.get?_bind_of_ne (hkey block x)]
          exact h key hkey
  | cons f frames ih =>
      match scopes with
      | s :: scopes =>
          refine ⟨h.1.frame ?_, ih h.2 fun g hg => hblock g (List.mem_cons_of_mem _ hg)⟩
          intro y _ heq
          exact hblock f List.mem_cons_self (hsep heq).1

theorem spelling_ne (hsep : Separates fresh) (hx : IsOld fresh x) {block : Nat} {y : String}
    (hblock : ∀ f ∈ frames, f.block ≠ block) : fresh block y ≠ spelling fresh frames x := by
  induction frames with
  | nil => exact (hx block y).symm
  | cons f frames ih =>
      by_cases hmem : x ∈ f.declared
      · rw [spelling_cons_of_mem hmem]
        intro heq
        exact hblock f List.mem_cons_self (hsep heq).1.symm
      · rw [spelling_cons_of_not_mem hmem]
        exact ih fun g hg => hblock g (List.mem_cons_of_mem _ hg)

/-- An assignment finds no name in the chain when the flat scope does not bind its spelling. -/
theorem Holds.assignIn_none (h : Holds fresh flat frames scopes) (hx : IsOld fresh x)
    (hnone : flat.get? (.text (spelling fresh frames x)) = none) :
    Environment.assignIn (.text x) v scopes = none := by
  rw [← h.get? hx] at hnone
  clear h
  induction scopes with
  | nil => rfl
  | cons s scopes ih =>
      rw [List.findSome?_eq_none_iff] at hnone
      have hs := hnone s List.mem_cons_self
      have hrest : scopes.findSome? (Scope.get? (.text x)) = none :=
        List.findSome?_eq_none_iff.mpr fun s' hs' => hnone s' (List.mem_cons_of_mem _ hs')
      rw [Environment.assignIn, hs, ih hrest]
      rfl

/-- An assignment in the chain is an assignment to the spelling in the flat scope. -/
theorem Holds.assignIn_some (hsep : Separates fresh) (h : Holds fresh flat frames scopes)
    (hx : IsOld fresh x) (hdistinct : (frames.map Frame.block).Nodup)
    (hsome : (flat.get? (.text (spelling fresh frames x))).isSome) :
    ∃ scopes', Environment.assignIn (.text x) v scopes = some scopes' ∧
      Holds fresh (flat.bind (.text (spelling fresh frames x)) v) frames scopes' := by
  induction frames generalizing scopes with
  | nil =>
      match scopes with
      | [globals] =>
          have hglobals := h (.text x) (fun b y heq => hx b y (Key.text_inj heq))
          change (flat.get? (.text x)).isSome at hsome
          refine ⟨[globals.bind (.text x) v], ?_, ?_⟩
          · rw [Environment.assignIn, hglobals, if_pos hsome]
          · intro key hkey
            change _ = (flat.bind (.text x) v).get? key
            by_cases heq : key = .text x
            · rw [heq, Scope.get?_bind_self, Scope.get?_bind_self]
            · rw [Scope.get?_bind_of_ne heq, Scope.get?_bind_of_ne heq]
              exact h key hkey
  | cons f frames ih =>
      cases scopes with
      | nil => exact h.elim
      | cons s scopes =>
          obtain ⟨hframe, hrest⟩ := h
          rw [List.map_cons, List.nodup_cons] at hdistinct
          have hblock : ∀ g ∈ frames, g.block ≠ f.block :=
            fun g hg heq => hdistinct.1 (heq ▸ List.mem_map_of_mem hg)
          by_cases hmem : x ∈ f.declared
          · rw [spelling_cons_of_mem hmem] at hsome ⊢
            refine ⟨s.bind (.text x) v :: scopes, ?_, ?_, hrest.frame hsep hblock⟩
            · rw [Environment.assignIn, hframe.declared x hmem, if_pos hsome]
            · refine hframe.bind hsep fun y => ⟨Or.inr, ?_⟩
              rintro (rfl | hy)
              · exact hmem
              · exact hy
          · rw [spelling_cons_of_not_mem hmem] at hsome ⊢
            obtain ⟨scopes', hassign, hholds⟩ := ih hrest hdistinct.2 hsome
            refine ⟨s :: scopes', ?_, hframe.frame ?_, hholds⟩
            · rw [Environment.assignIn, hframe.only x hmem, hassign]
              rfl
            · intro y _
              exact spelling_ne hsep hx hblock

/-- A declaration in the innermost scope is one of the new spelling in the flat scope. -/
theorem Holds.declare (hsep : Separates fresh) {name : Token} {e : Option Expr}
    (h : Holds fresh flat frames (s :: scopes)) (hdistinct : (frames.map Frame.block).Nodup) :
    Holds fresh
      (flat.bind (.text (spelling fresh (framesAfter (.declare name e) frames) name.lexeme)) v)
      (framesAfter (.declare name e) frames) (s.bind (.text name.lexeme) v :: scopes) := by
  match frames with
  | [] =>
      match scopes with
      | [] =>
          intro key hkey
          change _ = (flat.bind (.text name.lexeme) v).get? key
          by_cases heq : key = .text name.lexeme
          · rw [heq, Scope.get?_bind_self, Scope.get?_bind_self]
          · rw [Scope.get?_bind_of_ne heq, Scope.get?_bind_of_ne heq]
            exact h key hkey
  | f :: frames =>
      rw [List.map_cons, List.nodup_cons] at hdistinct
      rw [framesAfter, spelling_cons_of_mem List.mem_cons_self]
      refine ⟨h.1.bind hsep fun y => List.mem_cons, h.2.frame hsep ?_⟩
      intro g hg heq
      exact hdistinct.1 (heq ▸ List.mem_map_of_mem hg)

end Scoping

end MiniLox
