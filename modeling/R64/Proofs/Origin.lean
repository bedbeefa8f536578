import R64.Proofs.Addresses
import R64.Proofs.AddressSpace
/-!
The directive for an address. Before the first word it sets the origin; afterwards it fills up to the address, which
must lie neither in the code that is there nor beyond the memory. Main statement: what the directive does to an
assembly, for every list of operands. Whenever it succeeds, the next line stands at the address that it names, and
otherwise it reports an error and leaves the code as it was.
-/
namespace R64

namespace Assembly

/-- Code cannot go on at the address: it lies before the origin or before the end of the code, or is too far from the
origin for the memory. -/
def Refuses (memorySize : Nat) (a : Assembly) (address : Word) : Prop :=
  address < a.origin ∨ (address - a.origin).toNat < a.code.size ∨ memorySize < (address - a.origin).toNat

/-- The way of an assembly to an address. -/
structure MovesTo (memorySize : Nat) (line : Line) (address : Word) (before after : Assembly) : Prop where
  start : before.code.isEmpty → after = { before with origin := address }
  refused : before.code.isEmpty = false → before.Refuses memorySize address →
    ∃ fault, after = before.reject line [fault]
  filled : before.code.isEmpty = false → ¬ before.Refuses memorySize address →
    after.code.size = (address - before.origin).toNat ∧
      after = { before with code := { before.code with
        words := before.code.words ++ Array.replicate ((address - before.origin).toNat - before.code.size) 0 } }

/-- What the next line defines or emits stands at the address. -/
structure StandsAt (memorySize : Nat) (a : Assembly) (address : Word) : Prop where
  next : a.origin + UInt32.ofNat a.code.size = address
  labels : ∀ line, ∀ label ∈ a.labels line, a.code.definition? label = none →
    (a.process memorySize line).1.code.definition? label = some ⟨address, line⟩
  words : ∀ line segment, (a.process memorySize line).1.segments = a.segments.push segment → segment.address = address

theorem standsAt_of_next {memorySize : Nat} {a : Assembly} {address : Word}
    (h : a.origin + UInt32.ofNat a.code.size = address) : a.StandsAt memorySize address where
  next := h
  labels line label hlabel hnew := by
    rw [definition?_process, hnew, Option.none_or, defines?, if_pos hlabel, CodeBuffer.nextAddress, UInt32.add_comm, h]
  words line segment hsegment := by
    have hprocess := segments_process memorySize a line
    rw [hsegment, Array.toList_push, List.append_cancel_left_eq] at hprocess
    have hcontribution : a.contribution memorySize line = some segment := by
      cases hsome : a.contribution memorySize line with
      | none => simp [hsome] at hprocess
      | some s => simpa [hsome] using hprocess.symm
    obtain ⟨-, -, -, -, haddress, -⟩ := contribution_eq_some_iff.mp hcontribution
    rw [haddress, h]

theorem movesTo_moveTo (memorySize : Nat) (a : Assembly) (line : Line) (address : Word) :
    MovesTo memorySize line address a (a.moveTo memorySize line address) where
  start h := by rw [moveTo, if_pos h]
  refused hcode h := by
    rw [moveTo, if_neg (by simp [hcode])]
    dsimp only
    split
    · exact ⟨_, rfl⟩
    next hbelow =>
    split
    · exact ⟨_, rfl⟩
    next hbeyond =>
    have hinside : (address - a.origin).toNat < a.code.size := by
      rcases h with h | h | h
      · exact absurd h hbelow
      · exact h
      · exact absurd h hbeyond
    rw [CodeBuffer.fillTo?, if_pos hinside]
    exact ⟨_, rfl⟩
  filled hcode h := by
    obtain ⟨hbelow, hinside, hbeyond⟩ : _ ∧ _ ∧ _ := by simpa only [Refuses, not_or] using h
    have hmove : a.moveTo memorySize line address = { a with code := { a.code with
        words := a.code.words ++ Array.replicate ((address - a.origin).toNat - a.code.size) 0 } } := by
      rw [moveTo, if_neg (by simp [hcode])]
      dsimp only
      rw [if_neg hbelow, if_neg hbeyond, CodeBuffer.fillTo?, if_neg hinside]
    refine ⟨?_, hmove⟩
    rw [hmove]
    simp only [CodeBuffer.size, Array.size_append, Array.size_replicate] at hinside ⊢
    omega

/-- An assembly that is not refused stands at the address afterwards. -/
theorem MovesTo.standsAt {memorySize : Nat} {line : Line} {address : Word} {before after : Assembly}
    (h : MovesTo memorySize line address before after)
    (hfree : before.code.isEmpty ∨ ¬ before.Refuses memorySize address) : after.StandsAt memorySize address := by
  apply standsAt_of_next
  cases hcode : before.code.isEmpty with
  | true =>
    have hsize : before.code.size = 0 := congrArg Array.size (Array.isEmpty_iff.mp hcode)
    rw [h.start hcode, hsize]
    exact UInt32.add_zero address
  | false =>
    obtain ⟨hsize, hafter⟩ := h.filled hcode (hfree.resolve_left (by simp [hcode]))
    rw [hsize, hafter, UInt32.ofNat_toNat]
    exact (UInt32.add_comm _ _).trans (UInt32.sub_add_cancel address before.origin)

theorem reject_reject (a : Assembly) (line : Line) (faults faults' : List Fault) :
    (a.reject line faults).reject line faults' = a.reject line (faults ++ faults') := by
  simp [reject, report, ← Array.toList_inj]

/-- Address zero is refused or at the beginning, so that no word is added on the way to it. -/
theorem MovesTo.zero {memorySize : Nat} {line : Line} {before after : Assembly}
    (h : MovesTo memorySize line 0 before after) :
    ∃ faults, after = { before.reject line faults with origin := after.origin } := by
  cases hcode : before.code.isEmpty with
  | true =>
    refine ⟨[], ?_⟩
    rw [h.start hcode, reject_nil]
  | false =>
    have hrefuses : before.Refuses memorySize 0 := by
      by_cases horigin : before.origin = 0
      · refine .inr (.inl ?_)
        have hne : before.code.words ≠ #[] := by simpa [CodeBuffer.isEmpty] using hcode
        rw [horigin]
        exact Array.size_pos_iff.mpr hne
      · exact .inl (UInt32.pos_iff_ne_zero.mpr horigin)
    obtain ⟨fault, hfault⟩ := h.refused hcode hrefuses
    exact ⟨[fault], by rw [hfault]⟩

section Directive

variable (memorySize : Nat) (a : Assembly) (line : Line) (name : Text) {operand : Text}

theorem org_of_means {v : Int} (h : Address.Means operand [.offset v]) :
    a.org memorySize line name operand = a.moveTo memorySize line (UInt32.ofInt v) := by
  obtain ⟨literal, hparse, hliteral⟩ := Address.means_offset_iff.mp ⟨v, h, rfl⟩
  simp only [org, hparse, hliteral, Reading.accept, reject_nil]

theorem org_of_not_means (h : ∀ v, ¬ Address.Means operand [.offset v]) :
    ∃ faults, faults ≠ [] ∧ a.org memorySize line name operand =
      { a.reject line faults with origin := (a.org memorySize line name operand).origin } := by
  have hrejected (fault : Fault) (horg : a.org memorySize line name operand = a.reject line [fault]) :
      ∃ faults, faults ≠ [] ∧ a.org memorySize line name operand =
        { a.reject line faults with origin := (a.org memorySize line name operand).origin } :=
    ⟨[fault], List.cons_ne_nil _ _, by rw [horg]⟩
  cases hparse : Address.parse? operand with
  | none => exact hrejected _ (by rw [org, hparse])
  | some address =>
    obtain ⟨base, offset⟩ := address
    cases base with
    | some base => exact hrejected _ (by rw [org, hparse])
    | none =>
      cases offset with
      | none => exact hrejected _ (by rw [org, hparse])
      | some literal =>
        cases hliteral : Literal.integer literal with
        | ok w =>
          obtain ⟨v, hmeans, -⟩ := Address.means_offset_iff.mpr ⟨literal, hparse, hliteral⟩
          exact absurd hmeans (h v)
        | error e =>
          have horg : a.org memorySize line name operand =
              (a.reject line [.literal e]).moveTo memorySize line 0 := by
            simp only [org, hparse, hliteral, Reading.accept]
          obtain ⟨faults, hmove⟩ := (movesTo_moveTo memorySize (a.reject line [.literal e]) line 0).zero
          refine ⟨.literal e :: faults, List.cons_ne_nil _ _, ?_⟩
          rw [horg]
          rwa [reject_reject] at hmove

end Directive

/-- The directive for an address, behind the labels of its line. An offset alone is the address to move to: before the
first word the origin, afterwards the place up to which zeros are added unless it is refused, and in both cases the
place of the next line. Other operands are errors that leave everything but the origin as it was. -/
theorem process_org {memorySize : Nat} {a : Assembly} {line : Line} {name : Text} {operands : List Text}
    (h : a.statement line = .directive .org name operands) :
    let before := (a.labels line).foldl (label line) a
    ∃ after, a.process memorySize line = (after, none) ∧
      (∀ operand v, operands = [operand] → Address.Means operand [.offset v] →
        let address := UInt32.ofInt v
        MovesTo memorySize line address before after ∧
          (before.code.isEmpty ∨ ¬ before.Refuses memorySize address → after.StandsAt memorySize address)) ∧
      ((∀ operand v, operands = [operand] → ¬ Address.Means operand [.offset v]) →
        ∃ faults, faults ≠ [] ∧ after = { before.reject line faults with origin := after.origin }) := by
  intro before
  rw [process_eq, h]
  rcases operands with _ | ⟨operand, _ | ⟨second, operands⟩⟩
  · refine ⟨before.reject line [.directiveArity name], rfl, ?_, fun _ => ⟨_, List.cons_ne_nil _ _, rfl⟩⟩
    rintro operand v ⟨⟩
  · refine ⟨before.org memorySize line name operand, rfl, ?_, ?_⟩
    · rintro _ v ⟨⟩ hmeans
      rw [org_of_means memorySize before line name hmeans]
      have hmoves := movesTo_moveTo memorySize before line (UInt32.ofInt v)
      exact ⟨hmoves, hmoves.standsAt⟩
    · intro hother
      exact org_of_not_means memorySize before line name fun v => hother operand v rfl
  · refine ⟨before.reject line [.directiveArity name], rfl, ?_, fun _ => ⟨_, List.cons_ne_nil _ _, rfl⟩⟩
    rintro operand v ⟨⟩

/-- A gap behind the first word, and an address that has no representation in 32 bits. -/
theorem process_org_gap :
    let a : Assembly := { empty with origin := 0x100, code := { CodeBuffer.empty with words := #[7] } }
    let gap : Line := ⟨"gap", 2, ".org [ + 0x104 ]"⟩
    let wide : Line := ⟨"gap", 3, ".org [0x100000000]"⟩
    (∃ after, a.process 8 gap = (after, none) ∧ Address.Means "[ + 0x104 ]" [.offset 0x104] ∧
      ¬ a.Refuses 8 0x104 ∧ after.code.words = #[7, 0, 0, 0] ∧ after.StandsAt 8 0x104) ∧
    ∃ after, a.process 8 wide = (after, none) ∧ (∀ v, ¬ Address.Means "[0x100000000]" [.offset v]) ∧
      ∃ faults, faults ≠ [] ∧ after = { a.reject wide faults with origin := after.origin } := by
  intro a gap wide
  constructor
  · have hstatement : a.statement gap = .directive .org ".org" ["[ + 0x104 ]"] := by decide +kernel
    have hlabels : a.labels gap = [] := by decide +kernel
    have hmeans : Address.Means "[ + 0x104 ]" [.offset 0x104] := by
      refine ⟨⟨_, @Address.Layout.single " " " " " " ⟨.plus, "0x104"⟩ (by decide) (by decide) (by decide),
        .cons ?_ .nil⟩, by decide, by decide⟩
      exact @Address.Denotes.offset .plus .hexadecimal "104" 0x104 (by decide) (by decide) (by decide) (by decide)
    have hfree : ¬ a.Refuses 8 0x104 := by
      rintro (h | h | h) <;> exact absurd h (by decide)
    obtain ⟨after, hafter, hmoves, -⟩ := @process_org 8 a gap _ _ hstatement
    rw [hlabels] at hmoves
    obtain ⟨hmove, hstands⟩ := hmoves _ _ rfl hmeans
    have hzeros : (#[7] : Array Word) ++ Array.replicate ((UInt32.ofInt 0x104 - 0x100).toNat - 1) 0 =
        #[7, 0, 0, 0] := by
      decide +kernel
    refine ⟨after, hafter, hmeans, hfree, ?_, hstands (.inr hfree)⟩
    rw [(hmove.filled rfl hfree).2]
    exact hzeros
  · have hstatement : a.statement wide = .directive .org ".org" ["[0x100000000]"] := by decide +kernel
    have hlabels : a.labels wide = [] := by decide +kernel
    have hparse : Address.parse? "[0x100000000]" = some ⟨none, some "0x100000000"⟩ := by decide +kernel
    have hmeans (v : Int) : ¬ Address.Means "[0x100000000]" [.offset v] := by
      intro h
      obtain ⟨literal, hliteral, hread⟩ := Address.means_offset_iff.mp ⟨v, h, rfl⟩
      obtain rfl : ("0x100000000" : Text) = literal := by
        rw [hparse] at hliteral
        cases hliteral
        rfl
      have herror : (Literal.integer "0x100000000").isOk = false := by decide +kernel
      rw [hread] at herror
      cases herror
    obtain ⟨after, hafter, -, hother⟩ := @process_org 8 a wide _ _ hstatement
    rw [hlabels] at hother
    refine ⟨after, hafter, hmeans, hother ?_⟩
    rintro _ v ⟨⟩
    exact hmeans v

end Assembly

end R64
