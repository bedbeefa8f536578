import Mathlib.Data.List.Nodup
import Mathlib.Data.List.Perm.Basic
import Mathlib.Data.Prod.Basic
import R64.Proofs.Progress
import R64.Proofs.Splicing
/-!
Runs round by round. In a round a line or failure is taken and processed, and the file that it includes is entered. Main
statement: however files include each other, the rounds come to an end, no file is opened twice in them, and no line of
a file is processed twice.
-/
namespace R64

namespace SourceStack

section History

variable {files : Text → Lookup} (s : SourceStack)

theorem replay_append (calls later : List Call) :
    s.replay files (calls ++ later) = (s.replay files calls).replay files later := by
  induction calls generalizing s with
  | nil => rfl
  | cons c calls ih => exact ih (s.call files c)

theorem replayGiven_append (calls later : List Call) :
    s.replayGiven files (calls ++ later) =
      s.replayGiven files calls ++ (s.replay files calls).replayGiven files later := by
  induction calls generalizing s with
  | nil => rfl
  | cons c calls ih => rw [List.cons_append, replayGiven, replayGiven, ih, List.append_assoc, replay]

/-- No location is opened twice or after it was entered. -/
theorem nodup_replayOpened (files : Text → Lookup) (calls : List Call) :
    ((s.replayOpened files calls).map (·.location)).Nodup ∧
      ∀ o ∈ s.replayOpened files calls, o.location ∉ s.entered := by
  induction calls generalizing s with
  | nil => simp [replayOpened]
  | cons c calls ih =>
    obtain ⟨hnodup, hlater⟩ := ih (s.call files c)
    rw [replayOpened]
    rcases s.call_cases files c with ⟨hopened, hentered, -⟩ | ⟨o, hopened, -, hnew, hentered, -⟩
    · rw [hopened, List.nil_append]
      rw [hentered] at hlater
      exact ⟨hnodup, hlater⟩
    · rw [hentered] at hlater
      rw [hopened, List.singleton_append, List.map_cons, List.nodup_cons]
      refine ⟨⟨?_, hnodup⟩, ?_⟩
      · intro hagain
        obtain ⟨o', ho', heq⟩ := List.mem_map.mp hagain
        exact hlater o' ho' (heq ▸ List.mem_cons_self)
      · intro o' ho'
        rcases List.mem_cons.mp ho' with rfl | ho'
        · exact hnew
        · exact fun hold => hlater o' ho' (List.mem_cons_of_mem _ hold)

theorem found_of_mem_replayOpened (calls : List Call) :
    ∀ o ∈ s.replayOpened files calls, files o.name = .found o.location o.entry := by
  induction calls generalizing s with
  | nil => simp [replayOpened]
  | cons c calls ih =>
    intro o ho
    rw [replayOpened] at ho
    rcases List.mem_append.mp ho with ho | ho
    · rcases s.call_cases files c with ⟨hopened, -⟩ | ⟨o', hopened, hfound, -⟩
      · rw [hopened] at ho
        cases ho
      · rw [hopened] at ho
        obtain rfl := List.mem_singleton.mp ho
        exact hfound
    · exact ih (s.call files c) o ho

theorem weight_call_enter_le {fs : FileSystem} (hfiles : ∀ path l e, files path = .found l e → (l, e) ∈ fs.entries)
    (path : Text) : (s.call files (.enter path)).weight fs ≤ s.weight fs := by
  rw [call]
  cases henter : s.enter path (files (s.target path)) with
  | error fault => exact Nat.le_refl _
  | ok x => exact weight_enter_le (hfiles _) henter

end History

/-- The primary source of a run: a text in memory, or a file with its location. -/
inductive Primary (files : Text → Lookup) : Option Location → SourceStack → Prop
  | text (base name text : Text) : Primary files none (.ofText base name text)
  | file {workingPath path : Text} {l : Location} {e : Entry} {source : SourceStack} (base : Text)
      (found : files (Path.join workingPath (Text.unquote path)) = .found l e)
      (opened : ofPrimary workingPath path (.found l e) = .ok source) :
      Primary files (some l) { source with base }

/-- The line stands in the file at the location; without a location, in the primary text. -/
def Stands (files : Text → Lookup) (source : SourceStack) : Option Location → Line → Prop
  | none, line => ∃ base name text, source = .ofText base name text ∧
      (line.text, line.number) ∈ (Line.ofText text).zipIdx 1
  | some l, line => ∃ path bytes, files path = .found l (.file bytes) ∧
      (line.text, line.number) ∈ (Line.ofBytes bytes).zipIdx 1

end SourceStack

namespace Line

theorem map_number_numbered (file : Text) (first : Nat) (texts : List Text) :
    (numbered file first texts).map (·.number) = List.range' first texts.length := by
  rw [numbered, List.map_map]
  exact List.zipIdx_map_snd first texts

theorem mem_zipIdx_of_mem_numbered {file : Text} {first : Nat} {texts : List Text} {line : Line}
    (h : line ∈ numbered file first texts) : (line.text, line.number) ∈ texts.zipIdx first := by
  obtain ⟨x, hx, rfl⟩ := List.mem_map.mp h
  exact hx

end Line

theorem filterMap_toOption_map_ok (lines : List Line) :
    (lines.map Except.ok : List (Except Fault Line)).filterMap Except.toOption = lines := by
  rw [List.filterMap_map]
  exact List.filterMap_some

def Entry.lines (name : Text) (e : Entry) : List Line := (e.items name).filterMap Except.toOption

theorem Entry.nodup_number_lines (name : Text) (e : Entry) : ((e.lines name).map (·.number)).Nodup := by
  cases e with
  | directory => exact List.nodup_nil
  | file bytes =>
    rw [lines, items, filterMap_toOption_map_ok, Line.map_number_numbered]
    exact List.nodup_range'

theorem Entry.mem_zipIdx_of_mem_lines {name : Text} {e : Entry} {line : Line} (h : line ∈ e.lines name) :
    ∃ bytes, e = .file bytes ∧ (line.text, line.number) ∈ (Line.ofBytes bytes).zipIdx 1 := by
  cases e with
  | directory => cases h
  | file bytes =>
    rw [lines, items, filterMap_toOption_map_ok] at h
    exact ⟨bytes, rfl, Line.mem_zipIdx_of_mem_numbered h⟩

namespace SourceStack

variable {files : Text → Lookup} {owner : Option Location} {source : SourceStack}

theorem Primary.entered_eq (h : source.Primary files owner) : source.entered = owner.toList := by
  cases h with
  | text base name text => rfl
  | file base found opened =>
    cases opened
    rfl

theorem drain_ofText (base name text : Text) :
    (ofText base name text).drain = (Line.numbered name 1 (Line.ofText text)).map .ok := by
  rw [drain_eq, ofText, List.flatMap_singleton]
  rfl

/-- The lines of a primary source are numbered apart and stand where the source is. -/
theorem Primary.lines (h : source.Primary files owner) :
    ((source.drain.filterMap Except.toOption).map (·.number)).Nodup ∧
      ∀ line ∈ source.drain.filterMap Except.toOption, source.Stands files owner line := by
  cases h with
  | text base name text =>
    rw [drain_ofText, filterMap_toOption_map_ok, Line.map_number_numbered]
    refine ⟨List.nodup_range', ?_⟩
    intro line hline
    exact ⟨base, name, text, rfl, Line.mem_zipIdx_of_mem_numbered hline⟩
  | @file workingPath path l e source base found opened =>
    cases opened
    rw [drain_eq, List.flatMap_singleton, Frame.rest_ofEntry]
    refine ⟨e.nodup_number_lines _, ?_⟩
    intro line hline
    obtain ⟨bytes, rfl, hmem⟩ := Entry.mem_zipIdx_of_mem_lines hline
    exact ⟨_, bytes, found, hmem⟩

/-- A processed line is told apart from others by the location of its file and its number. -/
def key (mark : Option Location × Line) : Option Location × Nat := (mark.1, mark.2.number)

def Opening.marks (o : Opening) : List (Option Location × Line) :=
  (o.entry.lines o.name).map fun line => (some o.location, line)

theorem Opening.nodup_key_marks (o : Opening) : (o.marks.map key).Nodup := by
  have hmarks : o.marks.map key = ((o.entry.lines o.name).map (·.number)).map (Prod.mk (some o.location)) := by
    rw [marks, List.map_map, List.map_map]
    rfl
  rw [hmarks]
  exact (o.entry.nodup_number_lines o.name).map (Prod.mk_right_injective _)

theorem Opening.fst_of_mem_marks {o : Opening} {mark : Option Location × Line} (h : mark ∈ o.marks) :
    mark.1 = some o.location := by
  obtain ⟨line, -, rfl⟩ := List.mem_map.mp h
  rfl

/-- The lines of the primary source and of the files that a history of calls opens, with the locations of the files. -/
def marks (files : Text → Lookup) (owner : Option Location) (source : SourceStack) (calls : List Call) :
    List (Option Location × Line) :=
  (source.drain.filterMap Except.toOption).map (fun line => (owner, line)) ++
    (source.replayOpened files calls).flatMap Opening.marks

theorem map_snd_marks (files : Text → Lookup) (owner : Option Location) (source : SourceStack) (calls : List Call) :
    (marks files owner source calls).map Prod.snd =
      (source.drain ++ (source.replayOpened files calls).flatMap Opening.items).filterMap Except.toOption := by
  have hopened : (source.replayOpened files calls).flatMap (fun o => o.marks.map Prod.snd) =
      (source.replayOpened files calls).flatMap fun o => o.items.filterMap Except.toOption := by
    apply List.flatMap_congr
    intro o _
    rw [Opening.marks, List.map_map]
    exact List.map_id _
  rw [marks, List.map_append, List.map_map, List.map_flatMap, hopened, List.filterMap_append, List.filterMap_flatMap]
  exact congrArg (· ++ _) (List.map_id _)

theorem Primary.nodup_key_marks (h : source.Primary files owner) (calls : List Call) :
    ((marks files owner source calls).map key).Nodup := by
  obtain ⟨hnodup, hnew⟩ := source.nodup_replayOpened files calls
  rw [marks, List.map_append, List.nodup_append]
  refine ⟨?_, ?_, ?_⟩
  · have hkeys : ((source.drain.filterMap Except.toOption).map fun line => (owner, line)).map key =
        ((source.drain.filterMap Except.toOption).map (·.number)).map (Prod.mk owner) := by
      rw [List.map_map, List.map_map]
      rfl
    rw [hkeys]
    exact h.lines.1.map (Prod.mk_right_injective _)
  · rw [List.map_flatMap, List.nodup_flatMap]
    refine ⟨fun o _ => o.nodup_key_marks, ?_⟩
    rw [List.Nodup, List.pairwise_map] at hnodup
    refine hnodup.imp ?_
    intro o o' hne k hk hk'
    obtain ⟨mark, hmark, rfl⟩ := List.mem_map.mp hk
    obtain ⟨mark', hmark', heq⟩ := List.mem_map.mp hk'
    have hfst : mark'.1 = mark.1 := (Prod.mk.inj heq).1
    rw [Opening.fst_of_mem_marks hmark, Opening.fst_of_mem_marks hmark'] at hfst
    exact hne (Option.some.inj hfst).symm
  · intro k hk k' hk' heq
    obtain ⟨mark, hmark, rfl⟩ := List.mem_map.mp hk
    obtain ⟨line, -, rfl⟩ := List.mem_map.mp hmark
    obtain ⟨mark', hmark', rfl⟩ := List.mem_map.mp hk'
    obtain ⟨o, ho, hmark'⟩ := List.mem_flatMap.mp hmark'
    have howner : owner = some o.location := by
      rw [← Opening.fst_of_mem_marks hmark']
      exact congrArg Prod.fst heq
    refine hnew o ho ?_
    rw [h.entered_eq, howner]
    exact List.mem_singleton_self _

theorem Primary.stands_of_mem_marks (h : source.Primary files owner) (calls : List Call) :
    ∀ mark ∈ marks files owner source calls, source.Stands files mark.1 mark.2 := by
  intro mark hmark
  rcases List.mem_append.mp hmark with hmark | hmark
  · obtain ⟨line, hline, rfl⟩ := List.mem_map.mp hmark
    exact h.lines.2 line hline
  · obtain ⟨o, ho, hmark⟩ := List.mem_flatMap.mp hmark
    obtain ⟨line, hline, rfl⟩ := List.mem_map.mp hmark
    obtain ⟨bytes, hentry, hmem⟩ := Entry.mem_zipIdx_of_mem_lines hline
    exact ⟨o.name, bytes, hentry ▸ source.found_of_mem_replayOpened calls o ho, hmem⟩

/-- What a history of calls gives are lines of different files or with different numbers. -/
theorem Primary.exists_marks (h : source.Primary files owner) (calls : List Call) :
    ∃ given : List (Option Location × Line),
      given.map Prod.snd = (source.replayGiven files calls).filterMap Except.toOption ∧
      (given.map key).Nodup ∧ ∀ mark ∈ given, source.Stands files mark.1 mark.2 := by
  have hperm := (source.perm_replay files calls).filterMap Except.toOption
  rw [← map_snd_marks files owner, List.filterMap_append] at hperm
  -- the lines are the marks in another order; those that were given come first
  have hsnd : List.Forall₂ (fun line (mark : Option Location × Line) => line = mark.2)
      ((marks files owner source calls).map Prod.snd) (marks files owner source calls) :=
    List.forall₂_map_left_iff.mpr (List.forall₂_same.mpr fun _ _ => rfl)
  obtain ⟨reordered, hlines, hmarks⟩ := List.perm_comp_forall₂ hperm hsnd
  have hmap : reordered.map Prod.snd = (source.replayGiven files calls).filterMap Except.toOption ++
      (source.replay files calls).drain.filterMap Except.toOption := by
    rw [← List.forall₂_eq_eq_eq, List.forall₂_map_left_iff]
    exact hlines.flip.imp fun _ _ heq => heq.symm
  obtain ⟨given, rest, rfl, hgiven, -⟩ := List.map_eq_append_iff.mp hmap
  refine ⟨given, hgiven, ?_, ?_⟩
  · have hnodup := ((hmarks.map key).nodup_iff).mpr (h.nodup_key_marks calls)
    rw [List.map_append] at hnodup
    exact hnodup.of_append_left
  · intro mark hmark
    exact h.stands_of_mem_marks calls mark (hmarks.subset (List.mem_append_left _ hmark))

end SourceStack

/-- What happens in a round: a line or failure is taken, and the line may include the file with a path. -/
structure Round where
  item : Except Fault Line
  path : Option Text

def Round.calls (r : Round) : List SourceStack.Call := .next :: r.path.toList.map .enter

namespace Session

section Rounds

variable (files : Text → Lookup) (memorySize : Nat)

/-- One round, where `files` tells what a path gives. There is none when everything is read. -/
def round (s : Session) : Option (Round × Session) :=
  match s.source.next with
  | (none, _) => none
  | (some item, source) =>
    match absorb memorySize { s with source } item with
    | (t, none) => some (⟨item, none⟩, t)
    | (t, some (line, path)) => some (⟨item, some path⟩, t.resolve line path (files (t.source.target path)))

/-- The first `n` rounds, or all if there are fewer, and the session after them. -/
def rounds : Nat → Session → List Round × Session
  | 0, s => ([], s)
  | n + 1, s =>
    match s.round files memorySize with
    | none => ([], s)
    | some (r, t) => (r :: (rounds n t).1, (rounds n t).2)

end Rounds

variable {files : Text → Lookup} {memorySize : Nat} {s t : Session} {r : Round}

theorem source_resolve (s : Session) (line : Line) (path : Text) :
    (s.resolve line path (files (s.source.target path))).source = s.source.call files (.enter path) := by
  rw [resolve, SourceStack.call]
  cases s.source.enter path (files (s.source.target path)) <;> rfl

theorem of_round (h : s.round files memorySize = some (r, t)) :
    ∃ source, s.source.next = (some r.item, source) ∧
      t.source = source.replay files (r.path.toList.map .enter) ∧
      ∀ fs : FileSystem, files = fs.lookup → t = handle fs memorySize { s with source } r.item := by
  unfold round at h
  rcases hnext : s.source.next with ⟨_ | item, source⟩
  · rw [hnext] at h
    cases h
  · have hsource := source_absorb memorySize { s with source } item
    rw [hnext] at h
    dsimp only at h hsource
    rcases habsorb : absorb memorySize { s with source } item with ⟨t', _ | ⟨line, path⟩⟩
    · rw [habsorb] at h hsource
      cases h
      refine ⟨source, rfl, hsource, ?_⟩
      rintro fs rfl
      rw [handle_eq, habsorb]
    · rw [habsorb] at h hsource
      cases h
      refine ⟨source, rfl, ?_, ?_⟩
      · rw [source_resolve, hsource]
        rfl
      · rintro fs rfl
        rw [handle_eq, habsorb]

/-- In a round one item is taken, and the sources change by the calls of the round. -/
theorem source_round (h : s.round files memorySize = some (r, t)) :
    s.source.replayGiven files r.calls = [r.item] ∧ s.source.replay files r.calls = t.source := by
  obtain ⟨source, hnext, hsource, -⟩ := of_round h
  have hcall : s.source.call files .next = source := congrArg Prod.snd hnext
  have hgiven : s.source.given .next = [r.item] := congrArg (fun x => x.1.toList) hnext
  rw [Round.calls, SourceStack.replayGiven, SourceStack.replay, hcall, hgiven, hsource]
  refine ⟨?_, rfl⟩
  cases r.path <;> rfl

theorem round_eq_none (h : s.round files memorySize = none) : ∃ source, s.source.next = (none, source) := by
  unfold round at h
  rcases hnext : s.source.next with ⟨_ | item, source⟩
  · exact ⟨source, rfl⟩
  · rw [hnext] at h
    dsimp only at h
    split at h <;> cases h

theorem source_rounds (files : Text → Lookup) (memorySize n : Nat) (s : Session) :
    s.source.replayGiven files ((rounds files memorySize n s).1.flatMap Round.calls) =
        (rounds files memorySize n s).1.map (·.item) ∧
      s.source.replay files ((rounds files memorySize n s).1.flatMap Round.calls) =
        (rounds files memorySize n s).2.source := by
  induction n generalizing s with
  | zero => exact ⟨rfl, rfl⟩
  | succ n ih =>
    rw [rounds]
    cases hround : s.round files memorySize with
    | none => exact ⟨rfl, rfl⟩
    | some x =>
      obtain ⟨r, t⟩ := x
      obtain ⟨hgiven, hreplay⟩ := source_round hround
      obtain ⟨ihgiven, ihreplay⟩ := ih t
      dsimp only
      rw [List.flatMap_cons, SourceStack.replayGiven_append, SourceStack.replay_append, hgiven, hreplay, ihgiven,
        ihreplay]
      exact ⟨rfl, rfl⟩

section Weight

variable {fs : FileSystem} (hfiles : ∀ path l e, files path = .found l e → (l, e) ∈ fs.entries)

include hfiles

/-- A round uses up one of the lines and failures that there can still be. -/
theorem weight_round (h : s.round files memorySize = some (r, t)) : t.source.weight fs < s.source.weight fs := by
  obtain ⟨source, hnext, hsource, -⟩ := of_round h
  have hweight := SourceStack.weight_next fs hnext
  have hlater : t.source.weight fs ≤ source.weight fs := by
    rw [hsource]
    cases r.path with
    | none => exact Nat.le_refl _
    | some path => exact source.weight_call_enter_le hfiles path
  omega

/-- After as many rounds as there can be lines and failures there is no other. -/
theorem round_rounds_eq_none {n : Nat} (hn : s.source.weight fs ≤ n) :
    (rounds files memorySize n s).2.round files memorySize = none := by
  induction n generalizing s with
  | zero =>
    cases hround : s.round files memorySize with
    | none => exact hround
    | some x => have hlt := weight_round hfiles hround; omega
  | succ n ih =>
    rw [rounds]
    cases hround : s.round files memorySize with
    | none => exact hround
    | some x =>
      have hlt := weight_round hfiles hround
      exact ih (by omega)

end Weight

/-- The rounds of a session are the beginning of its scan. -/
theorem scan_rounds (fs : FileSystem) (memorySize n : Nat) (s : Session) :
    (rounds fs.lookup memorySize n s).2.scan fs memorySize = s.scan fs memorySize ∧
      (s.visits fs memorySize).map Prod.snd =
        (rounds fs.lookup memorySize n s).1.filterMap (·.item.toOption) ++
          ((rounds fs.lookup memorySize n s).2.visits fs memorySize).map Prod.snd := by
  induction n generalizing s with
  | zero => exact ⟨rfl, rfl⟩
  | succ n ih =>
    rw [rounds]
    cases hround : s.round fs.lookup memorySize with
    | none => exact ⟨rfl, rfl⟩
    | some x =>
      obtain ⟨r, t⟩ := x
      obtain ⟨source, hnext, -, hhandle⟩ := of_round hround
      obtain ⟨ihscan, ihvisits⟩ := ih t
      rw [scan_of_some hnext, ← hhandle fs rfl, visits_of_some hnext, ← hhandle fs rfl, List.map_append, ihvisits]
      refine ⟨ihscan, ?_⟩
      cases hitem : r.item with
      | error fault => simp [hitem, Except.toOption]
      | ok line => simp [hitem, Except.toOption]

end Session

/-- However files include each other and however their paths are written, a run ends: after as many rounds as there can
be lines and failures there is no other round. No location is opened twice, and that of a primary file never. Every line
that is processed can be marked with the location of the file that it stands in, and no two have the same location and
the same number. The rounds are those of a run on the file system, whose report is made from the session after them. -/
theorem Assembly.run_entersOnce (fs : FileSystem) (files : Text → Lookup)
    (hfiles : ∀ path l e, files path = .found l e → (l, e) ∈ fs.entries) (memorySize : Nat) (owner : Option Location)
    (source : SourceStack) (hprimary : source.Primary files owner) (n : Nat) :
    let rounds := (Session.rounds files memorySize n ⟨source, .empty⟩).1
    let final := (Session.rounds files memorySize n ⟨source, .empty⟩).2
    let opened := (source.replayOpened files (rounds.flatMap Round.calls)).map (·.location)
    (source.weight fs ≤ n → final.round files memorySize = none) ∧
    opened.Nodup ∧ (∀ l ∈ owner, l ∉ opened) ∧
    (∃ processed : List (Option Location × Line),
      processed.map Prod.snd = rounds.filterMap (·.item.toOption) ∧
      (processed.map SourceStack.key).Nodup ∧ ∀ mark ∈ processed, source.Stands files mark.1 mark.2) ∧
    (files = fs.lookup → memorySize ≤ memoryLimit → source.weight fs ≤ n →
      run fs memorySize source = final.assembly.finish memorySize ∧
      (visits fs memorySize source).map Prod.snd = rounds.filterMap (·.item.toOption)) := by
  intro rounds final opened
  obtain ⟨hnodup, hnew⟩ := source.nodup_replayOpened files (rounds.flatMap Round.calls)
  obtain ⟨hgiven, -⟩ := Session.source_rounds files memorySize n ⟨source, .empty⟩
  refine ⟨?_, hnodup, ?_, ?_, ?_⟩
  · intro hn
    exact Session.round_rounds_eq_none hfiles hn
  · intro l hl hopened
    obtain ⟨o, ho, rfl⟩ := List.mem_map.mp hopened
    refine hnew o ho ?_
    rw [hprimary.entered_eq, Option.mem_toList]
    exact hl
  · obtain ⟨processed, hlines, hkeys, hstands⟩ := hprimary.exists_marks (rounds.flatMap Round.calls)
    refine ⟨processed, ?_, hkeys, hstands⟩
    rw [hlines, hgiven, List.filterMap_map]
    rfl
  · rintro rfl hlimit hn
    have hnone : final.round fs.lookup memorySize = none := Session.round_rounds_eq_none hfiles hn
    obtain ⟨rest, hnext⟩ := Session.round_eq_none hnone
    obtain ⟨hscan, hvisits⟩ := Session.scan_rounds fs memorySize n ⟨source, .empty⟩
    rw [Session.visits_of_none hnext, List.map_nil, List.append_nil] at hvisits
    rw [run_of_not_lt (by omega), visits_of_not_lt (by omega), ← hscan, Session.scan_of_none hnext]
    exact ⟨rfl, hvisits⟩

/-- Two files that include each other and themselves, once through a macro and a detour. -/
theorem Assembly.run_entersOnce_cycle :
    let fs : FileSystem := ⟨[([], .directory), ([↑"a"], .file (Text.toBytes ".inc b\n.inc a")),
      ([↑"b"], .file (Text.toBytes ".def up, ./..\n.inc up/a"))], []⟩
    let source : SourceStack := ⟨[⟨"a", 0, .lines [".inc b", ".inc a"]⟩], "/", [[↑"a"]]⟩
    let rounds := (Session.rounds fs.lookup 8 7 ⟨source, .empty⟩).1
    let opened := (source.replayOpened fs.lookup (rounds.flatMap Round.calls)).map (·.location)
    SourceStack.openPrimary fs "a" = .ok source ∧ source.weight fs ≤ 7 ∧
      (Session.rounds fs.lookup 8 7 ⟨source, .empty⟩).2.round fs.lookup 8 = none ∧
      opened.Nodup ∧ ([↑"a"] : Location) ∉ opened ∧ opened = [[↑"b"]] := by
  intro fs source rounds opened
  have hopen : SourceStack.openPrimary fs "a" = .ok source := by decide +kernel
  have hfound : fs.lookup (Path.join fs.workingPath (Text.unquote "a")) =
      .found [↑"a"] (.file (Text.toBytes ".inc b\n.inc a")) := by decide +kernel
  have hprimary : source.Primary fs.lookup (some [↑"a"]) := by
    rw [SourceStack.openPrimary, hfound] at hopen
    exact .file "/" hfound hopen
  have hweight : source.weight fs ≤ 7 := by decide +kernel
  have honce := run_entersOnce fs fs.lookup (fun _ _ _ => FileSystem.mem_of_found) 8 _ source hprimary 7
  exact ⟨hopen, hweight, honce.1 hweight, honce.2.1, honce.2.2.1 _ rfl, by decide +kernel⟩

end R64
