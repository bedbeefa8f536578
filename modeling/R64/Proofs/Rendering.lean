import R64.Proofs.Labels
/-!
Tokens written as a line again. A list of tokens is well formed if it is what a line can hold: labels, and behind them
at most one name with its operands. Main statement: the tokens of a line are well formed, and every well-formed list is
the list of tokens of the line that it is rendered to.
-/
namespace R64

open Text (isBlank trimStart trimEnd trim spanPlain isQuote Free Tight Exposed)

namespace Text

variable {stop : Char → Bool} {q : Quoting} {s : Text} {c : Char}

/-- What stands behind a character at which cutting ends does not matter. -/
theorem fst_spanPlain_append_stop (hs : q.run s = .plain) (hc : stop c) (rest : Text) :
    (spanPlain stop q (s ++ c :: rest)).1 = (spanPlain stop q s).1 := by
  induction s generalizing q with
  | nil =>
    rw [List.nil_append, spanPlain.eq_2, if_pos ⟨hs, hc⟩]
    rfl
  | cons d s ih =>
    rw [List.cons_append, spanPlain, spanPlain]
    split
    · rfl
    · exact congrArg (d :: ·) (ih hs)

theorem isQuote_of_isBlank (h : isBlank c) : isQuote c = false :=
  (Token.of_isInert (Token.isInert_of_isBlank h)).1

theorem run_of_blank (h : ∀ c ∈ s, isBlank c) : Quoting.plain.run s = .plain :=
  run_of_unquoted fun c hc => isQuote_of_isBlank (h c hc)

theorem free_trimStart (h : Free stop .plain s) : Free stop .plain (trimStart s) := by
  rw [← List.takeWhile_append_dropWhile (p := isBlank) (l := s), free_append,
    run_of_blank fun c hc => List.mem_takeWhile_imp hc] at h
  exact h.2

/-- Blanks close no region. -/
theorem run_of_run_blanks {gap : Text} (hgap : ∀ c ∈ gap, isBlank c) (h : Quoting.plain.run (s ++ gap) = .plain) :
    Quoting.plain.run s = .plain := by
  induction gap using List.reverseRecOn with
  | nil => rwa [List.append_nil] at h
  | append_singleton gap c ih =>
    have hc : isBlank c := hgap c (List.mem_append_right gap (List.mem_singleton_self c))
    rw [← List.append_assoc] at h
    exact ih (fun d hd => hgap d (List.mem_append_left [c] hd)) (Quoting.run_of_run_concat (isQuote_of_isBlank hc) h)

theorem run_trimEnd (h : Quoting.plain.run s = .plain) : Quoting.plain.run (trimEnd s) = .plain := by
  obtain ⟨gap, hgap, hs⟩ := exists_trimEnd s
  rw [hs] at h
  exact run_of_run_blanks hgap h

theorem eq_nil_of_trimStart (hlast : ∀ c ∈ s.getLast?, isBlank c = false) (h : trimStart s = []) : s = [] := by
  rw [trimStart, List.dropWhile_eq_nil_iff] at h
  apply List.getLast?_eq_none_iff.mp
  apply Option.eq_none_iff_forall_ne_some.mpr
  intro c hc
  have hblank := h c (List.mem_of_getLast? hc)
  rw [hlast c hc] at hblank
  cases hblank

end Text

namespace Token

/-- A token that ends in a colon outside quoted regions. -/
def marksLabel (token : Text) : Bool :=
  decide (token.getLast? = some ':' ∧ Quoting.plain.run token.dropLast = .plain)

/-- The line of the tokens. Each label has a blank behind it if something follows. -/
def render : List Text → Text
  | [] => []
  | token :: rest =>
    if marksLabel token then
      if rest = [] then token else token ++ " " ++ render rest
    else written token rest

/-- Labels, with a name and its operands behind them or nothing. -/
inductive WellFormed : List Text → Prop
  | nil : WellFormed []
  | label {head : Text} {tokens : List Text} :
    Quoting.plain.run head = .plain → Unbroken head → WellFormed tokens → WellFormed ((head ++ ":") :: tokens)
  | statement {name : Text} {os : List Text} : IsStatement name os → WellFormed (name :: os)

theorem marksLabel_label {head : Text} (h : Quoting.plain.run head = .plain) : marksLabel (head ++ ":") := by
  rw [marksLabel, decide_eq_true_eq]
  exact ⟨List.getLast?_concat, by rwa [show head ++ ":" = head ++ [':'] from rfl, List.dropLast_concat]⟩

theorem marksLabel_of_unbroken {name : Text} (h : Unbroken name) : marksLabel name = false := by
  rw [marksLabel, decide_eq_false_iff_not]
  rintro ⟨hlast, hclosed⟩
  obtain ⟨start, rfl⟩ := List.getLast?_eq_some_iff.mp hlast
  rw [List.dropLast_concat] at hclosed
  exact (h ':' ⟨start, [], rfl, hclosed⟩).2.1 rfl

theorem render_label {head : Text} (h : Quoting.plain.run head = .plain) (tokens : List Text) :
    render ((head ++ ":") :: tokens) = head ++ ':' :: if tokens = [] then [] else ' ' :: render tokens := by
  rw [render, if_pos (marksLabel_label h)]
  split
  · rfl
  · simp

theorem render_statement {name : Text} (h : Unbroken name) (os : List Text) :
    render (name :: os) = written name os := by
  rw [render, marksLabel_of_unbroken h]
  rfl

namespace WellFormed

variable {tokens : List Text}

theorem head_render (h : WellFormed tokens) : ∀ c ∈ (render tokens).head?, isBlank c = false := by
  cases h with
  | nil => simp [render]
  | @label head tokens hclosed hunbroken _ =>
    rw [render_label hclosed]
    cases head with
    | nil =>
      intro c hc
      obtain rfl := Option.some.inj hc
      decide
    | cons d head =>
      intro c hc
      obtain rfl := Option.some.inj hc
      exact (hunbroken d ⟨[], head, rfl, rfl⟩).1
  | statement h =>
    rw [render_statement h.unbroken]
    exact h.head_written

theorem comment_render (h : WellFormed tokens) : Free (· == ';') .plain (render tokens) := by
  induction h with
  | nil => exact Text.free_nil
  | @label head tokens hclosed hunbroken _ ih =>
    rw [render_label hclosed, Text.free_append, hclosed, Text.free_cons]
    refine ⟨(unbroken_iff.mp hunbroken).2, by decide, ?_⟩
    split
    · exact Text.free_nil
    · exact Text.free_cons.mpr ⟨by decide, ih⟩
  | statement h =>
    rw [render_statement h.unbroken]
    exact h.comment_written

theorem statement_render (h : WellFormed tokens) : Token.statement (trimEnd (render tokens)) = tokens := by
  induction h with
  | nil => exact statement_nil
  | @label head tokens hclosed hunbroken h ih =>
    have hfree := (unbroken_iff.mp hunbroken).1
    have hlabel := @statement_of_label head [] hfree hclosed (by simp)
    rw [List.append_nil] at hlabel
    rw [render_label hclosed, Text.trimEnd_append_cons (by decide), hlabel, Text.trimStart_trimEnd]
    split
    · next hnil => rw [hnil]; exact congrArg _ statement_nil
    · rw [Text.trimStart_blank h.head_render, ih]
  | statement h =>
    rw [render_statement h.unbroken]
    exact h.statement_written

end WellFormed

theorem items_ne_nil (s : Text) : items s ≠ [] := by
  refine items_induction (motive := fun _ os => os ≠ []) ?_ ?_ s
  · intro s _
    exact List.cons_ne_nil _ _
  · intro piece rest _ _ _
    exact List.cons_ne_nil _ _

theorem isOperand_trimEnd {s piece : Text} (htight : Tight s) (hcomment : Free (· == ';') .plain s) (h : piece <+: s)
    (hcomma : Free (· == ',') .plain piece) : IsOperand (trimEnd piece) := by
  have hprefix : trimEnd piece <+: s := (Text.prefix_trimEnd piece).trans h
  rw [isOperand_iff]
  refine ⟨⟨fun c hc => htight.head c (Text.head?_of_isPrefix hprefix c hc), Text.getLast?_trimEnd piece⟩, ?_, ?_⟩
  · exact Text.free_of_isPrefix (Text.prefix_trimEnd piece) hcomma
  · exact Text.free_of_isPrefix hprefix hcomment

theorem comment_after {piece rest : Text} {c : Char} (h : Free (· == ';') .plain (piece ++ c :: rest))
    (hclosed : Quoting.plain.run piece = .plain) (hc : isQuote c = false) : Free (· == ';') .plain (trimStart rest) := by
  rw [Text.free_append, hclosed, Text.free_cons, Text.step_of_not_isQuote hc] at h
  exact Text.free_trimStart h.2.2

theorem isOperand_of_mem_items {s : Text} (htight : Tight s) (hcomment : Free (· == ';') .plain s) :
    ∀ o ∈ items s, IsOperand o := by
  revert htight hcomment
  refine items_induction
    (motive := fun s os => Tight s → Free (· == ';') .plain s → ∀ o ∈ os, IsOperand o) ?_ ?_ s
  · intro s hcomma htight hcomment o ho
    rw [List.mem_singleton.mp ho]
    exact isOperand_trimEnd htight hcomment (List.prefix_refl s) hcomma
  · intro piece rest hcomma hclosed ih htight hcomment o ho
    rcases List.mem_cons.mp ho with rfl | ho
    · exact isOperand_trimEnd htight hcomment (List.prefix_append ..) hcomma
    · exact ih (tight_after htight) (comment_after hcomment hclosed rfl) o ho

theorem closed_of_mem_items (s : Text) : ∀ o ∈ (items s).dropLast, Quoting.plain.run o = .plain := by
  refine items_induction (motive := fun _ os => ∀ o ∈ os.dropLast, Quoting.plain.run o = .plain) ?_ ?_ s
  · intro s _ o ho
    cases ho
  · intro piece rest _ hclosed ih o ho
    rw [List.dropLast_cons_of_ne_nil (items_ne_nil _)] at ho
    rcases List.mem_cons.mp ho with rfl | ho
    · exact Text.run_trimEnd hclosed
    · exact ih o ho

theorem prefix_of_mem_head?_items (s : Text) : ∀ o ∈ (items s).head?, o <+: s := by
  refine items_induction (motive := fun s os => ∀ o ∈ os.head?, o <+: s) ?_ ?_ s
  · intro s _ o ho
    obtain rfl := Option.some.inj ho
    exact Text.prefix_trimEnd s
  · intro piece rest _ _ _ o ho
    obtain rfl := Option.some.inj ho
    exact (Text.prefix_trimEnd piece).trans (List.prefix_append ..)

/-- Only an empty text holds nothing but an empty operand. -/
theorem items_ne_single {s : Text} (htight : Tight s) (hne : s ≠ []) : items s ≠ [[]] := by
  revert htight hne
  refine items_induction (motive := fun s os => Tight s → s ≠ [] → os ≠ [[]]) ?_ ?_ s
  · intro s _ htight hne
    rw [Text.trimEnd_of_last htight.last]
    simpa using hne
  · intro piece rest _ _ _ _ _ hsingle
    exact items_ne_nil _ (List.cons.inj hsingle).2

/-- A name that something follows does not end in a blank. -/
theorem last_of_unbroken {name : Text} (h : Unbroken name) (hclosed : Quoting.plain.run name = .plain) :
    ∀ c ∈ name.getLast?, isBlank c = false := by
  intro c hc
  obtain ⟨start, rfl⟩ := List.getLast?_eq_some_iff.mp hc
  cases hblank : isBlank c with
  | false => rfl
  | true =>
    have hstart := Quoting.run_of_run_concat (Text.isQuote_of_isBlank hblank) hclosed
    rw [← hblank]
    exact (h c ⟨start, [], rfl, hstart⟩).1

theorem head_ne_nil {rest tail : Text} {c : Char} (htight : Tight rest) (hne : rest ≠ []) (hc : c ≠ ':')
    (h : trimStart (spanPlain endsHead .plain rest).2 = c :: tail) : (spanPlain endsHead .plain rest).1 ≠ [] := by
  intro hnil
  have hrest := Text.spanPlain_append endsHead .plain rest
  obtain ⟨d, rest, rfl⟩ := List.exists_cons_of_ne_nil hne
  rw [hnil, List.nil_append] at hrest
  have hends := Text.stop_of_spanPlain hrest
  have hblank := htight.head d rfl
  rw [endsHead, hblank, Bool.false_or, beq_iff_eq] at hends
  rw [hrest, Text.trimStart_of_head htight.head] at h
  exact hc ((List.cons.inj h).1.symm.trans hends)

theorem isStatement_items {name gap s : Text} (htight : Tight (name ++ gap ++ s)) (hne : name ≠ [])
    (hunbroken : Unbroken name) (hclosed : Quoting.plain.run name = .plain) (hgap : ∀ c ∈ gap, isBlank c)
    (hcomment : Free (· == ';') .plain (name ++ gap ++ s)) (hs : s ≠ [])
    (hhead : ∀ c ∈ s.head?, isBlank c = false ∧ c ≠ ':') : IsStatement name (items s) := by
  have hstight : Tight s :=
    ⟨fun c hc => (hhead c hc).1, fun c hc => htight.last c (Text.getLast?_of_isSuffix (List.suffix_append ..) c hc)⟩
  have hscomment : Free (· == ';') .plain s := by
    rw [Text.free_append, Quoting.run_append, hclosed, Text.run_of_blank hgap] at hcomment
    exact hcomment.2
  refine ⟨hne, ⟨?_, last_of_unbroken hunbroken hclosed⟩, hunbroken, ?_, ?_, items_ne_single hstight hs, ?_⟩
  · rw [List.append_assoc] at htight
    exact fun c hc => htight.head c (Text.head?_of_isPrefix (List.prefix_append ..) c hc)
  · exact isOperand_of_mem_items hstight hscomment
  · intro t ht
    rw [List.dropLast_cons_of_ne_nil (items_ne_nil s)] at ht
    rcases List.mem_cons.mp ht with rfl | ht
    · exact hclosed
    · exact closed_of_mem_items s t ht
  · intro o ho hcolon
    exact (hhead ':' (Text.head?_of_isPrefix (prefix_of_mem_head?_items s o ho) ':' hcolon)).2 rfl

theorem wellFormed_statement {rest : Text} (htight : Tight rest) (hcomment : Free (· == ';') .plain rest) :
    WellFormed (statement rest) := by
  induction hn : rest.length using Nat.strong_induction_on generalizing rest with
  | _ n ih =>
    by_cases hne : rest = []
    · rw [hne, statement_nil]
      exact .nil
    have hunbroken : Unbroken (spanPlain endsHead .plain rest).1 :=
      unbroken_iff.mpr ⟨Text.free_spanPlain endsHead .plain rest,
        Text.free_of_isPrefix (Text.prefix_spanPlain endsHead .plain rest) hcomment⟩
    rcases statement_cases hne with ⟨hnil, heq⟩ | ⟨tail, htail, heq⟩ | ⟨c, tail, hc, htail, heq⟩
    · have hbehind : (spanPlain endsHead .plain rest).2 = [] :=
        Text.eq_nil_of_trimStart
          (fun c hc => htight.last c (Text.getLast?_of_isSuffix (Text.suffix_spanPlain ..) c hc)) hnil
      have hhead : (spanPlain endsHead .plain rest).1 = rest := by rw [Text.spanPlain_of_free hbehind]
      rw [hhead] at hunbroken heq
      rw [heq]
      exact .statement ⟨hne, htight, hunbroken, by simp, by simp, by simp, by simp⟩
    · have hclosed := Text.run_spanPlain_of_ne_nil (ne_nil_of_trimStart htail)
      obtain ⟨gap, hgap, hrest⟩ := exists_gap htail
      rw [← hrest] at htight hcomment
      have hbefore : Quoting.plain.run ((spanPlain endsHead .plain rest).1 ++ gap) = .plain := by
        rw [Quoting.run_append, hclosed, Text.run_of_blank hgap]
      rw [heq]
      exact .label hclosed hunbroken
        (ih _ (hn ▸ length_after_blanks htail) (tight_after htight) (comment_after hcomment hbefore rfl) rfl)
    · have hclosed := Text.run_spanPlain_of_ne_nil (ne_nil_of_trimStart htail)
      obtain ⟨gap, hgap, hrest⟩ := exists_gap htail
      rw [heq, operands, if_neg (List.cons_ne_nil c tail)]
      refine .statement (isStatement_items (hrest.symm ▸ htight) ?_ hunbroken hclosed hgap (hrest.symm ▸ hcomment)
        (List.cons_ne_nil c tail) ?_)
      · exact head_ne_nil htight hne hc htail
      · intro d hd
        obtain rfl := Option.some.inj hd
        exact ⟨Text.head?_trimStart _ c (by rw [htail]; rfl), hc⟩

theorem wellFormed_tokenize (line : Text) : WellFormed (tokenize line) := by
  apply wellFormed_statement (Text.tight_trim (stripComment line))
  have hfree := Text.free_trimStart (Text.free_spanPlain (· == ';') .plain line)
  exact Text.free_of_isPrefix (Text.prefix_trimEnd _) hfree

theorem WellFormed.tokenize_render {tokens : List Text} (h : WellFormed tokens) :
    tokenize (render tokens) = tokens := by
  rw [tokenize, stripComment_of_free h.comment_render, trim, Text.trimStart_of_head h.head_render, h.statement_render]

/-- The tokens of every line are well formed, and a well-formed list is the list of tokens of the line that it is
rendered to, so that rendering a line's tokens keeps them. A comment behind a line in which no quoted region is open
changes nothing. -/
theorem tokenize_roundTrip :
    (∀ line, WellFormed (tokenize line)) ∧
    (∀ tokens, WellFormed tokens → tokenize (render tokens) = tokens) ∧
    (∀ line, tokenize (render (tokenize line)) = tokenize line) ∧
    ∀ line comment, Quoting.plain.run line = .plain → tokenize (line ++ ';' :: comment) = tokenize line := by
  refine ⟨wellFormed_tokenize, fun tokens h => h.tokenize_render, ?_, ?_⟩
  · intro line
    exact (wellFormed_tokenize line).tokenize_render
  · intro line comment hclosed
    rw [tokenize, stripComment, Text.fst_spanPlain_append_stop hclosed rfl]
    rfl

/-- Semicolons, colons and commas in quoted regions, an empty operand, and a region that stays open. -/
theorem tokenize_roundTrip_open :
    let tokens : List Text := ["a:", "\"b c\":", "m';'", "", "x \"y, z"]
    (WellFormed tokens ∧ tokenize (render tokens) = tokens) ∧
    Quoting.plain.run "m ';'" = .plain ∧ tokenize ("m ';'" ++ ';' :: "b: c") = tokenize "m ';'" := by
  intro tokens
  have hwellFormed : WellFormed tokens := by
    refine @WellFormed.label "a" _ rfl (unbroken_iff.mpr (by decide)) ?_
    refine @WellFormed.label "\"b c\"" _ rfl (unbroken_iff.mpr (by decide)) (.statement ?_)
    refine ⟨by decide, by decide, unbroken_iff.mpr (by decide), ?_, by decide, by decide, by decide⟩
    intro o ho
    rw [isOperand_iff]
    rcases List.mem_pair.mp ho with rfl | rfl
    · decide
    · decide
  exact ⟨⟨hwellFormed, tokenize_roundTrip.2.1 tokens hwellFormed⟩, rfl, tokenize_roundTrip.2.2.2 _ _ rfl⟩

end Token

end R64
