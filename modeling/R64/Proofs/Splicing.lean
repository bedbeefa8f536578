import R64.Proofs.Lexing
import R64.Source.Stack
/-!
What a stack of sources has to give. Draining it takes line after line and enters no further file. Main statement: a
line that is taken comes first in what the stack had to give, a file that is entered puts its lines in front of it, and
over any history of calls nothing is lost and nothing is given twice.
-/
namespace R64

namespace Line

variable {α : Type} [DecidableEq α] {lf cr : α}

/-- `s` consists of the pieces, a line feed behind each, and of `last`, and has no other line feeds. -/
structure Pieces (lf : α) (s : List α) (pieces : List (List α)) (last : List α) : Prop where
  whole : s = pieces.flatMap (· ++ [lf]) ++ last
  ended : ∀ piece ∈ pieces, lf ∉ piece
  unended : lf ∉ last

def withoutReturn (cr : α) (piece : List α) : List α :=
  if piece.getLast? = some cr then piece.dropLast else piece

theorem exists_pieces (lf : α) (s : List α) : ∃ pieces last, Pieces lf s pieces last := by
  induction s with
  | nil => exact ⟨[], [], rfl, by simp, by simp⟩
  | cons c s ih =>
    obtain ⟨pieces, last, rfl, hended, hlast⟩ := ih
    by_cases hc : c = lf
    · subst hc
      exact ⟨[] :: pieces, last, rfl, by simpa using hended, hlast⟩
    · cases pieces with
      | nil => exact ⟨[], c :: last, rfl, by simp, by simp [Ne.symm hc, hlast]⟩
      | cons piece pieces =>
        refine ⟨(c :: piece) :: pieces, last, rfl, ?_, hlast⟩
        simpa [Ne.symm hc] using hended

theorem closed_reverse (cr : α) (piece : List α) : closed cr piece.reverse = withoutReturn cr piece := by
  rcases List.eq_nil_or_concat piece with rfl | ⟨start, c, rfl⟩
  · rfl
  · by_cases hc : c = cr <;> simp [closed, withoutReturn, hc]

/-- A text is cut into its pieces, each without one carriage return at its end, and what follows them. -/
theorem Pieces.cut_eq {s : List α} {pieces : List (List α)} {last : List α} (h : Pieces lf s pieces last) :
    cut lf cr [] s = pieces.map (withoutReturn cr) ++ if last = [] then [] else [last] := by
  obtain ⟨rfl, hended, hlast⟩ := h
  induction pieces with
  | nil =>
    rw [List.flatMap_nil, List.nil_append, cut_of_not_mem hlast, List.append_nil, List.reverse_reverse]
    simp
  | cons piece pieces ih =>
    have hrest := ih fun p hp => hended p (List.mem_cons_of_mem piece hp)
    rw [List.flatMap_cons, List.append_assoc, List.append_assoc, List.singleton_append, cut_append,
      cut_line (hended piece List.mem_cons_self), hrest, List.append_nil, closed_reverse, List.map_cons]
    rfl

/-- Texts as lines of a file, counted from `first` on. -/
def numbered (file : Text) (first : Nat) (texts : List Text) : List Line :=
  (texts.zipIdx first).map fun (text, number) => ⟨file, number, text⟩

end Line

/-- The lines of a file under a name, counted from one. A directory gives one failure. -/
def Entry.items (name : Text) : Entry → List (Except Fault Line)
  | .file bytes => (Line.numbered name 1 (Line.ofBytes bytes)).map .ok
  | .directory => [.error (.fileRead name)]

def Frame.rest (f : Frame) : List (Except Fault Line) :=
  match f.content with
  | .unreadable => [.error (.fileRead f.name)]
  | .lines texts => (Line.numbered f.name (f.taken + 1) texts).map .ok

theorem Frame.rest_ofEntry (name : Text) (e : Entry) : (⟨name, 0, .ofEntry e⟩ : Frame).rest = e.items name := by
  cases e <;> rfl

namespace SourceStack

theorem rest_of_take_some {frames rest : List Frame} {item : Except Fault Line} (h : take frames = (some item, rest)) :
    frames.flatMap Frame.rest = item :: rest.flatMap Frame.rest := by
  induction frames with
  | nil => cases h
  | cons f frames ih =>
    unfold take at h
    split at h
    · next hcontent =>
      cases h
      rw [List.flatMap_cons, Frame.rest, hcontent]
      rfl
    · next hcontent =>
      rw [List.flatMap_cons, ih h, Frame.rest, hcontent]
      rfl
    · next hcontent =>
      cases h
      rw [List.flatMap_cons, Frame.rest, hcontent, List.flatMap_cons, Frame.rest]
      rfl

theorem rest_of_take_none {frames rest : List Frame} (h : take frames = (none, rest)) :
    frames.flatMap Frame.rest = [] ∧ rest = [] := by
  induction frames with
  | nil =>
    cases h
    exact ⟨rfl, rfl⟩
  | cons f frames ih =>
    unfold take at h
    split at h
    · cases h
    · next hcontent =>
      obtain ⟨hrest, rfl⟩ := ih h
      rw [List.flatMap_cons, hrest, Frame.rest, hcontent]
      exact ⟨rfl, rfl⟩
    · cases h

theorem items_next {s s' : SourceStack} {item : Except Fault Line} (h : s.next = (some item, s')) :
    s'.items < s.items := by
  obtain ⟨hitem, rfl⟩ := Prod.mk.inj h
  have htake := pending_take (Prod.ext hitem rfl : take s.frames = (some item, (take s.frames).2))
  simp only [items, htake]
  omega

/-- Everything that the stack gives when no further file is entered. -/
def drain (s : SourceStack) : List (Except Fault Line) :=
  match h : s.next with
  | (none, _) => []
  | (some item, s') =>
    have := items_next h
    item :: drain s'
termination_by s.items

theorem drain_of_none {s s' : SourceStack} (h : s.next = (none, s')) : s.drain = [] := by
  rw [drain]
  split
  · rfl
  · next heq =>
    rw [h] at heq
    cases heq

theorem drain_of_some {s s' : SourceStack} {item : Except Fault Line} (h : s.next = (some item, s')) :
    s.drain = item :: s'.drain := by
  rw [drain]
  split
  · next heq =>
    rw [h] at heq
    cases heq
  · next heq =>
    rw [h] at heq
    cases heq
    rfl

/-- The open sources are drained one after another, the innermost first. -/
theorem drain_eq (s : SourceStack) : s.drain = s.frames.flatMap Frame.rest := by
  induction s using drain.induct with
  | case1 s s' h =>
    have htake : take s.frames = (none, (take s.frames).2) := Prod.ext (Prod.mk.inj h).1 rfl
    rw [drain_of_none h, (rest_of_take_none htake).1]
  | case2 s item s' h _ ih =>
    have htake : take s.frames = (some item, (take s.frames).2) := Prod.ext (Prod.mk.inj h).1 rfl
    rw [drain_of_some h, ih, rest_of_take_some htake, ← (Prod.mk.inj h).2]

/-- All that a request for a file can do: enter a file that was not entered before, pass over, or fail. -/
theorem enter_cases (s : SourceStack) (path : Text) (lookup : Lookup) :
    (∃ l e, lookup = .found l e ∧ l ∉ s.entered ∧
      s.enter path lookup = .ok (true,
        { s with frames := ⟨s.target path, 0, .ofEntry e⟩ :: s.frames, entered := l :: s.entered })) ∨
    s.enter path lookup = .ok (false, s) ∨
    s.enter path lookup = .error (.sourceOpen (Text.unquote path)) := by
  unfold enter
  split
  · exact .inr (.inl rfl)
  · next hnew =>
    cases lookup with
    | nowhere => exact .inr (.inr rfl)
    | barred l => exact .inr (.inr rfl)
    | found l e => exact .inl ⟨l, e, rfl, by simpa [isEntered] using hnew, rfl⟩

inductive Call where
  | next
  | enter (path : Text)

/-- A file that a call has opened, with the name that it is shown under. -/
structure Opening where
  location : Location
  name : Text
  entry : Entry

def Opening.items (o : Opening) : List (Except Fault Line) := o.entry.items o.name

section History

variable (files : Text → Lookup)

/-- The stack after a call, where `files` tells what a path gives. A request that fails leaves the stack as it is. -/
def call (s : SourceStack) : Call → SourceStack
  | .next => s.next.2
  | .enter path =>
    match s.enter path (files (s.target path)) with
    | .ok (_, s') => s'
    | .error _ => s

def given (s : SourceStack) : Call → List (Except Fault Line)
  | .next => s.next.1.toList
  | .enter _ => []

def opened (s : SourceStack) : Call → List Opening
  | .next => []
  | .enter path =>
    match s.enter path (files (s.target path)), files (s.target path) with
    | .ok (true, _), .found l e => [⟨l, s.target path, e⟩]
    | _, _ => []

def replay : SourceStack → List Call → SourceStack
  | s, [] => s
  | s, c :: calls => replay (s.call files c) calls

def replayGiven : SourceStack → List Call → List (Except Fault Line)
  | _, [] => []
  | s, c :: calls => s.given c ++ replayGiven (s.call files c) calls

def replayOpened : SourceStack → List Call → List Opening
  | _, [] => []
  | s, c :: calls => s.opened files c ++ replayOpened (s.call files c) calls

variable {files} (s : SourceStack)

theorem drain_enter {path : Text} {s' : SourceStack}
    (h : s.enter path (files (s.target path)) = .ok (true, s')) :
    ∃ l e, files (s.target path) = .found l e ∧ l ∉ s.entered ∧ s'.entered = l :: s.entered ∧
      s'.depth = s.depth + 1 ∧ s'.drain = e.items (s.target path) ++ s.drain := by
  rcases s.enter_cases path (files (s.target path)) with ⟨l, e, hfound, hnew, henter⟩ | henter | henter
  · rw [henter] at h
    cases h
    refine ⟨l, e, hfound, hnew, rfl, rfl, ?_⟩
    rw [drain_eq, drain_eq, List.flatMap_cons, Frame.rest_ofEntry]
  · rw [henter] at h
    cases h
  · rw [henter] at h
    cases h

theorem eq_of_passed {path : Text} {s' : SourceStack}
    (h : s.enter path (files (s.target path)) = .ok (false, s')) : s' = s := by
  rcases s.enter_cases path (files (s.target path)) with ⟨l, e, hfound, hnew, henter⟩ | henter | henter
  · rw [henter] at h
    cases h
  · rw [henter] at h
    cases h
    rfl
  · rw [henter] at h
    cases h

theorem call_enter_of_not_entered {path : Text}
    (h : ∀ s', s.enter path (files (s.target path)) ≠ .ok (true, s')) : s.call files (.enter path) = s := by
  rw [call]
  rcases henter : s.enter path (files (s.target path)) with fault | ⟨_ | _, s'⟩
  · rfl
  · exact s.eq_of_passed henter
  · exact absurd henter (h s')

theorem drain_of_exhausted {s' : SourceStack} (h : s.next = (none, s')) : s'.drain = [] := by
  have htake : take s.frames = (none, (take s.frames).2) := Prod.ext (Prod.mk.inj h).1 rfl
  rw [drain_eq, ← (Prod.mk.inj h).2, (rest_of_take_none htake).2, List.flatMap_nil]

/-- All that a call can do: give the first of what there was, leave everything as it is, or open a file. -/
theorem call_cases (files : Text → Lookup) (c : Call) :
    (s.opened files c = [] ∧ (s.call files c).entered = s.entered ∧ s.given c ++ (s.call files c).drain = s.drain) ∨
    ∃ o, s.opened files c = [o] ∧ files o.name = .found o.location o.entry ∧ o.location ∉ s.entered ∧
      (s.call files c).entered = o.location :: s.entered ∧
      s.given c ++ (s.call files c).drain = o.items ++ s.drain := by
  cases c with
  | next =>
    refine .inl ⟨rfl, rfl, ?_⟩
    rcases hnext : s.next with ⟨_ | item, s'⟩
    · rw [given, call, hnext, s.drain_of_exhausted hnext, drain_of_none hnext]
      rfl
    · rw [given, call, hnext, drain_of_some hnext]
      rfl
  | enter path =>
    rw [given, call, opened]
    rcases henter : s.enter path (files (s.target path)) with fault | ⟨_ | _, s'⟩
    · exact .inl ⟨rfl, rfl, rfl⟩
    · rw [s.eq_of_passed henter]
      exact .inl ⟨rfl, rfl, rfl⟩
    · obtain ⟨l, e, hfound, hnew, hentered, -, hdrain⟩ := s.drain_enter henter
      rw [hfound]
      exact .inr ⟨⟨l, s.target path, e⟩, rfl, hfound, hnew, hentered, hdrain⟩

theorem perm_call (c : Call) :
    (s.given c ++ (s.call files c).drain).Perm (s.drain ++ (s.opened files c).flatMap Opening.items) := by
  rcases s.call_cases files c with ⟨hopened, -, hdrain⟩ | ⟨o, hopened, -, -, -, hdrain⟩
  · rw [hdrain, hopened, List.flatMap_nil, List.append_nil]
  · rw [hdrain, hopened, List.flatMap_singleton]
    exact List.perm_append_comm

/-- Over any history of calls, what was given and what is left are what there was at first and the lines of the files
that were opened, each once. -/
theorem perm_replay (files : Text → Lookup) (calls : List Call) :
    (s.replayGiven files calls ++ (s.replay files calls).drain).Perm
      (s.drain ++ (s.replayOpened files calls).flatMap Opening.items) := by
  induction calls generalizing s with
  | nil => simp [replayGiven, replay, replayOpened]
  | cons c calls ih =>
    rw [replayGiven, replay, replayOpened, List.flatMap_append, List.append_assoc, ← List.append_assoc s.drain]
    calc s.given c ++ (replayGiven files (s.call files c) calls ++ (replay files (s.call files c) calls).drain)
      _ |>.Perm (s.given c ++ ((s.call files c).drain ++
            (replayOpened files (s.call files c) calls).flatMap Opening.items)) := (ih _).append_left _
      _ = (s.given c ++ (s.call files c).drain) ++
            (replayOpened files (s.call files c) calls).flatMap Opening.items := (List.append_assoc _ _ _).symm
      _ |>.Perm _ := (s.perm_call c).append_right _

end History

/-- Calls on a stack splice files into what the stack has to give. A line or failure that is taken came first; a file
that is entered stands with all its lines in front of what was there, and no other request changes anything. Over any
history of calls nothing is lost and nothing comes twice. The lines of a file are the pieces that line feeds end,
without one carriage return at their end, and a last piece without line feed unless it is empty. -/
theorem spliced (files : Text → Lookup) (s : SourceStack) :
    (∀ item s', s.next = (some item, s') → s.drain = item :: s'.drain) ∧
    (∀ s', s.next = (none, s') → s.drain = [] ∧ s'.drain = []) ∧
    (∀ path s', s.enter path (files (s.target path)) = .ok (true, s') →
      s.call files (.enter path) = s' ∧
      ∃ l e, files (s.target path) = .found l e ∧ s'.drain = e.items (s.target path) ++ s.drain) ∧
    (∀ path, (∀ s', s.enter path (files (s.target path)) ≠ .ok (true, s')) → s.call files (.enter path) = s) ∧
    (∀ calls, (s.replayGiven files calls ++ (s.replay files calls).drain).Perm
      (s.drain ++ (s.replayOpened files calls).flatMap Opening.items)) ∧
    ∀ bytes, ∃ pieces last, Line.Pieces 0x0A bytes pieces last ∧
      Line.ofBytes bytes =
        (pieces.map (Line.withoutReturn 0x0D) ++ if last = [] then [] else [last]).map Text.ofBytes := by
  refine ⟨?_, ?_, ?_, ?_, s.perm_replay files, ?_⟩
  · intro item s' hnext
    exact drain_of_some hnext
  · intro s' hnext
    exact ⟨drain_of_none hnext, s.drain_of_exhausted hnext⟩
  · intro path s' henter
    obtain ⟨l, e, hfound, -, -, -, hdrain⟩ := s.drain_enter henter
    exact ⟨by rw [call, henter], l, e, hfound, hdrain⟩
  · intro path hnot
    exact s.call_enter_of_not_entered hnot
  · intro bytes
    obtain ⟨pieces, last, hpieces⟩ := Line.exists_pieces 0x0A bytes
    exact ⟨pieces, last, hpieces, by rw [Line.ofBytes, hpieces.cut_eq]⟩

/-- A file that is entered after the only line of the source that includes it, which is exhausted but still open. -/
theorem spliced_behind_last_line :
    let fs : FileSystem := ⟨[([], .directory), ([↑"lib"], .file (Text.toBytes "x\r\ny"))], []⟩
    let s : SourceStack := ⟨[⟨"main", 1, .lines []⟩], "", []⟩
    let s' : SourceStack := ⟨[⟨"lib", 0, .lines ["x", "y"]⟩, ⟨"main", 1, .lines []⟩], "", [[↑"lib"]]⟩
    s.enter "lib" (fs.lookup (s.target "lib")) = .ok (true, s') ∧
      ∃ l e, fs.lookup "lib" = .found l e ∧ s'.drain = e.items "lib" ++ s.drain := by
  intro fs s s'
  have henter : s.enter "lib" (fs.lookup (s.target "lib")) = .ok (true, s') := by decide +kernel
  exact ⟨henter, ((spliced fs.lookup s).2.2.1 "lib" s' henter).2⟩

end SourceStack

end R64
