import R64.Proofs.Addresses
import R64.Proofs.FileSystem
import R64.Proofs.Moved
/-!
Relocation. Main statement: a program behind a directive for an address gives the report of the program alone, moved to
that address.
-/
namespace R64

namespace CodeBuffer

variable {distance : Word} {b c : CodeBuffer}

theorem words_of_moved (h : b.transport distance Line.unnumbered = c.transport 0 Line.unnumbered) :
    b.words = c.words := by
  have hwords := congrArg CodeBuffer.words h
  exact hwords

theorem mem_references_of_moved (h : b.transport distance Line.unnumbered = c.transport 0 Line.unnumbered)
    {r : Reference} (hr : r ∈ b.references) :
    ∃ r' ∈ c.references, r'.label = r.label ∧ r'.position = r.position := by
  have hmem : r.transport Line.unnumbered ∈ (b.transport distance Line.unnumbered).references :=
    Array.mem_map.mpr ⟨r, hr, rfl⟩
  rw [h] at hmem
  obtain ⟨r', hr', heq⟩ := Array.mem_map.mp hmem
  have hlabel := congrArg Reference.label heq
  have hposition := congrArg Reference.position heq
  exact ⟨r', hr', hlabel, hposition⟩

theorem definition?_of_moved (h : b.transport distance Line.unnumbered = c.transport 0 Line.unnumbered)
    {label : Text} {d : Definition} (hd : b.definition? label = some d) :
    ∃ d', c.definition? label = some d' ∧ d'.address = d.address + distance := by
  have hmoved := congrArg (·.definition? label) h
  simp only [definition?_transport, hd, Option.map_some] at hmoved
  obtain ⟨d', hd', heq⟩ := Option.map_eq_some_iff.mp hmoved.symm
  have haddress := congrArg Definition.address heq
  simp only [Definition.transport, UInt32.add_zero] at haddress
  exact ⟨d', hd', haddress⟩

end CodeBuffer

open CodeBuffer (Operation layout)

/-- `r'` is `r` moved by a distance, where `ops` is the history of the code. The words in the places of uses differ by
the distance, all others are equal. -/
structure Report.Relocated (distance : Word) (ops : List Operation) (r r' : Report) : Prop where
  success : r'.image.isSome = r.image.isSome
  diagnostics : r'.diagnostics.toList.map (fun d => (d.level, d.fault)) =
    r.diagnostics.toList.map fun d => (d.level, d.fault)
  segments : r'.segments.toList.map (fun s => (s.address, s.start, s.stop, s.isInstruction)) =
    r.segments.toList.map fun s => (s.address + distance, s.start, s.stop, s.isInstruction)
  symbols : r'.symbols.toList = r.symbols.toList.map fun s => (s.1, s.2 + distance)
  size : ∀ image image', r.image = some image → r'.image = some image' → image'.size = image.size
  use : ∀ image image', r.image = some image → r'.image = some image' →
    ∀ (i : Nat) (label : Text) (line : Line), (layout ops)[i]? = some (.use label line) →
      ∃ w, image[i]? = some w ∧ image'[i]? = some (w + distance)
  other : ∀ image image', r.image = some image → r'.image = some image' →
    ∀ i : Nat, (∀ label line, (layout ops)[i]? ≠ some (.use label line)) → image'[i]? = image[i]?

namespace Assembly

variable {distance : Word} {a b : Assembly}

theorem diagnostics_finish_moved (h : a.transport distance Line.unnumbered = b.transport 0 Line.unnumbered)
    (memorySize : Nat) :
    (a.finish memorySize).diagnostics.toList.map (·.transport Line.unnumbered) =
      (b.finish memorySize).diagnostics.toList.map (·.transport Line.unnumbered) := by
  have hcode := congrArg Assembly.code h
  have hdiagnostics := congrArg (fun x => x.diagnostics.toList) h
  have hunresolved := congrArg CodeBuffer.unresolved hcode
  have hsize : a.code.size = b.code.size := congrArg Array.size (CodeBuffer.words_of_moved hcode)
  simp only [Assembly.transport, CodeBuffer.unresolved_transport, Array.toList_map] at hdiagnostics hunresolved
  simp only [diagnostics_finish, List.map_append, hdiagnostics, hunresolved, hsize]

theorem levels_finish_moved (h : a.transport distance Line.unnumbered = b.transport 0 Line.unnumbered)
    (memorySize : Nat) :
    (b.finish memorySize).diagnostics.toList.map (fun d => (d.level, d.fault)) =
      (a.finish memorySize).diagnostics.toList.map fun d => (d.level, d.fault) := by
  have hmap := congrArg (List.map fun d : Diagnostic => (d.level, d.fault)) (diagnostics_finish_moved h memorySize)
  simp only [List.map_map, Function.comp_def, Diagnostic.transport] at hmap
  exact hmap.symm

theorem isSome_image_finish_moved (h : a.transport distance Line.unnumbered = b.transport 0 Line.unnumbered)
    (memorySize : Nat) : (b.finish memorySize).image.isSome = (a.finish memorySize).image.isSome := by
  have hlevels (r : Report) :
      (∀ d ∈ r.diagnostics, d.level ≠ .error) ↔
        ∀ x ∈ r.diagnostics.toList.map fun d => (d.level, d.fault), x.1 ≠ .error := by
    simp
  rw [Bool.eq_iff_iff, isSome_image_finish, isSome_image_finish, hlevels, hlevels, levels_finish_moved h]

theorem segments_moved (h : a.transport distance Line.unnumbered = b.transport 0 Line.unnumbered) :
    b.segments.toList.map (fun s => (s.address, s.start, s.stop, s.isInstruction)) =
      a.segments.toList.map fun s => (s.address + distance, s.start, s.stop, s.isInstruction) := by
  have hsegments := congrArg (fun x => x.segments.toList.map fun s => (s.address, s.start, s.stop, s.isInstruction)) h
  simp only [Assembly.transport, Segment.transport, Array.toList_map, List.map_map, Function.comp_def,
    UInt32.add_zero] at hsegments
  exact hsegments.symm

theorem symbols_moved (h : a.transport distance Line.unnumbered = b.transport 0 Line.unnumbered) :
    b.code.symbols.toList = a.code.symbols.toList.map fun s => (s.1, s.2 + distance) := by
  have hsymbols := congrArg (fun x => x.code.symbols.toList) h
  simp only [Assembly.transport, CodeBuffer.transport, CodeBuffer.symbols, Definition.transport, Array.toList_map,
    List.map_map, Function.comp_def, UInt32.add_zero] at hsymbols
  simp only [CodeBuffer.symbols, Array.toList_map, List.map_map, Function.comp_def, hsymbols]

end Assembly

namespace CodeBuffer

variable {distance : Word} {b c : CodeBuffer}

/-- Linking moved buffers gives words that differ by the distance in the places of defined uses. -/
theorem getElem?_link_moved_of_mem (h : b.transport distance Line.unnumbered = c.transport 0 Line.unnumbered)
    (hb : b.WellFormed) (hc : c.WellFormed) {r : Reference} (hr : r ∈ b.references)
    (hd : b.definition? r.label ≠ none) :
    ∃ w, b.link.words[r.position]? = some w ∧ c.link.words[r.position]? = some (w + distance) := by
  obtain ⟨d, hd⟩ := Option.ne_none_iff_exists'.mp hd
  obtain ⟨r', hr', hlabel, hposition⟩ := mem_references_of_moved h hr
  obtain ⟨d', hd', haddress⟩ := definition?_of_moved h hd
  refine ⟨d.address, hb.getElem?_link hr hd, ?_⟩
  rw [← hposition, ← haddress]
  exact hc.getElem?_link hr' (by rw [hlabel, hd'])

theorem getElem?_link_moved_of_unused (h : b.transport distance Line.unnumbered = c.transport 0 Line.unnumbered)
    {i : Nat} (hi : b.Unused i) : c.link.words[i]? = b.link.words[i]? := by
  have hpositions := congrArg (fun x => x.references.toList.map (·.position)) h
  simp only [CodeBuffer.transport, Reference.transport, Array.toList_map, List.map_map, Function.comp_def]
    at hpositions
  have hi' : c.Unused i := by
    intro r hr heq
    have hmem : i ∈ b.references.toList.map (·.position) := by
      rw [hpositions, ← heq]
      exact List.mem_map_of_mem (Array.mem_toList_iff.mpr hr)
    obtain ⟨r', hr', heq'⟩ := List.mem_map.mp hmem
    exact hi r' (Array.mem_toList_iff.mp hr') heq'
  rw [getElem?_link_of_kept fun r hr heq => absurd heq (hi r hr),
    getElem?_link_of_kept fun r hr heq => absurd heq (hi' r hr), words_of_moved h]

end CodeBuffer

/-- Assemblies that are moved against each other have reports that are. -/
theorem Assembly.relocated_finish {distance : Word} {a b : Assembly}
    (h : a.transport distance Line.unnumbered = b.transport 0 Line.unnumbered) {ops : List Operation}
    (hlink : .link ∉ ops) (ha : a.code = CodeBuffer.empty.replay ops) (hb : b.code.WellFormed) (memorySize : Nat) :
    Report.Relocated distance ops (a.finish memorySize) (b.finish memorySize) := by
  have hcode := congrArg Assembly.code h
  have hwords : a.code.words = b.code.words := CodeBuffer.words_of_moved hcode
  have hsize : b.code.size = a.code.size := congrArg Array.size hwords.symm
  have hlinked : b.code.link.words.size = a.code.link.words.size := by
    have hsizes : b.code.link.size = a.code.link.size := by
      rw [CodeBuffer.size_link, CodeBuffer.size_link, hsize]
    exact hsizes
  have hawell : a.code.WellFormed := by
    rw [ha]
    exact CodeBuffer.empty_wellFormed.replay ops
  have huses (r : Reference) : r ∈ a.code.references ↔ (layout ops)[r.position]? = some (.use r.label r.line) := by
    rw [ha]
    exact CodeBuffer.mem_references_replay hlink
  refine {
    success := isSome_image_finish_moved h memorySize
    diagnostics := levels_finish_moved h memorySize
    segments := segments_moved h
    symbols := symbols_moved h
    size := ?_, use := ?_, other := ?_ }
  all_goals
    intro image image' himage himage'
    obtain ⟨-, hresolved, rfl⟩ := of_image_finish himage
    obtain ⟨-, -, rfl⟩ := of_image_finish himage'
  · simp [hlinked, hsize]
  · intro i label line hcell
    have hr : (⟨label, i, line⟩ : Reference) ∈ a.code.references := (huses _).mpr hcell
    obtain ⟨w, hw, hw'⟩ := CodeBuffer.getElem?_link_moved_of_mem hcode hawell hb hr
      (CodeBuffer.defined_of_unresolved hresolved _ hr)
    obtain ⟨hlt, -⟩ := Array.getElem?_eq_some_iff.mp hw
    refine ⟨w, ?_, ?_⟩
    · rw [Array.getElem?_append_left hlt]
      exact hw
    · rw [Array.getElem?_append_left (by rwa [hlinked])]
      exact hw'
  · intro i hcell
    have hunused : a.code.Unused i := by
      rintro r hr rfl
      exact hcell r.label r.line ((huses r).mp hr)
    rw [Array.getElem?_append, Array.getElem?_append, hlinked, hsize,
      CodeBuffer.getElem?_link_moved_of_unused hcode hunused]

def Directive.orgLine (x : Text) : Text := ".org" ++ " " ++ Address.bracketed x

section Directive

variable {x offset : Text} {address : Word} (hparse : Address.parse? (Address.bracketed x) = some ⟨none, some offset⟩)

include hparse

theorem Token.tokenize_orgLine : Token.tokenize (Directive.orgLine x) = [↑".org", Address.bracketed x] := by
  have hname : Token.Inert ".org" := Token.inert_of_all (by decide) (by decide)
  have hoperand : Token.Inert (Address.bracketed x) := by
    apply Address.inert_bracketed
    intro c hc
    rcases Address.of_parse?_offset hparse hc with hc | rfl | rfl | hc
    · exact Token.isInert_of_isBlank hc
    · decide
    · decide
    · exact Token.isInert_of_isAlphanum hc
  have hwritten : Directive.orgLine x = Token.written ".org" [Address.bracketed x] := by
    rw [Token.written, List.intercalate_singleton]
    rfl
  rw [hwritten]
  exact Token.tokenize_written_of_inert hname (by decide) (by simpa using hoperand)

/-- In front of everything else the directive sets the origin and does nothing else. -/
theorem Assembly.process_orgLine (hvalue : Literal.integer offset = .ok address) (memorySize : Nat) {line : Line}
    (hline : line.text = Directive.orgLine x) :
    empty.process memorySize line = ({ empty with origin := address }, none) := by
  have htokens : Token.tokenize (empty.macros.expand line.text) = [↑".org", Address.bracketed x] := by
    rw [hline]
    exact Token.tokenize_orgLine hparse
  have hstatement : Statement.ofTokens [↑".org", Address.bracketed x] =
      .directive .org ".org" [Address.bracketed x] := rfl
  rw [process, htokens, processTokens]
  have hlabels : Statement.splitLabels [↑".org", Address.bracketed x] = ([], [↑".org", Address.bracketed x]) := by
    rfl
  rw [hlabels]
  simp only [hstatement, List.foldl_nil, execute, direct, org, hparse, hvalue]
  rfl

end Directive

theorem Session.Moved.empty {source source' : SourceStack} (h : source.unnumbered = source'.unnumbered)
    (address : Word) :
    Session.Moved address ⟨source, .empty⟩ ⟨source', { Assembly.empty with origin := address }⟩ where
  source := h
  assembly := by simp [Assembly.transport, CodeBuffer.transport, Assembly.empty, CodeBuffer.empty]

namespace Assembly

/-- A run whose first line only sets the origin is the run of the rest, moved to that origin. -/
theorem relocated_run {fs fs' : FileSystem} {source source' rest : SourceStack} {line : Line} {address : Word}
    {memorySize : Nat} (hfirst : source'.next = (some (.ok line), rest))
    (hprocess : empty.process memorySize line = ({ empty with origin := address }, none))
    (hrest : source.unnumbered = rest.unnumbered) (hfs : fs.Agree source.entered fs')
    (hmove : ∀ v ∈ visits fs memorySize source, (v.1.statement v.2).isMove = false) :
    Report.Relocated address (history fs memorySize source) (run fs memorySize source)
      (run fs' memorySize source') := by
  by_cases hlimit : memoryLimit < memorySize
  · have hrefused (fs : FileSystem) (source : SourceStack) : (run fs memorySize source).image = none := by
      rw [run_eq, if_pos hlimit]
    have hequal : run fs' memorySize source' = run fs memorySize source := by
      rw [run_eq, if_pos hlimit, run_eq, if_pos hlimit]
    rw [hequal]
    refine ⟨rfl, rfl, ?_, ?_, ?_, ?_, ?_⟩
    · rw [run_eq, if_pos hlimit]
      rfl
    · rw [run_eq, if_pos hlimit]
      rfl
    all_goals
      intro image image' himage
      rw [hrefused] at himage
      cases himage
  have hscan : Session.scan fs' memorySize ⟨source', .empty⟩ =
      Session.scan fs' memorySize ⟨rest, { empty with origin := address }⟩ := by
    rw [Session.scan_of_some hfirst, Session.handle_ok]
    dsimp only
    rw [hprocess]
  rw [run_of_not_lt hlimit, run_of_not_lt hlimit, history_of_not_lt hlimit, hscan]
  rw [visits, if_neg hlimit] at hmove
  apply relocated_finish ((Session.Moved.empty hrest address).scan hfs memorySize hmove)
    (Session.link_not_mem_history fs memorySize _) (Session.code_scan fs memorySize _)
  rw [Session.code_scan]
  exact CodeBuffer.empty_wellFormed.replay _

end Assembly

/-- No run that has entered a file can tell what is written into it afterwards. -/
theorem FileSystem.agree_put_file {fs : FileSystem} {l : Location} {old : List UInt8}
    (h : fs.entry? l = some (.file old)) (new : List UInt8) : fs.Agree [l] (fs.put l (.file new)) := by
  intro path
  rw [lookup_put_file h]
  cases hlookup : fs.lookup path with
  | nowhere => exact .inl rfl
  | barred here => exact .inl rfl
  | found here e =>
    by_cases hhere : here = l
    · exact .inr ⟨here, e, _, by simp [hhere], rfl, rfl⟩
    · exact .inl (by simp [hhere])

theorem SourceStack.next_lines (name text base : Text) (taken : Nat) (rest : List Text) (frames : List Frame)
    (entered : List Location) :
    next ⟨⟨name, taken, .lines (text :: rest)⟩ :: frames, base, entered⟩ =
      (some (.ok ⟨name, taken + 1, text⟩), ⟨⟨name, taken + 1, .lines rest⟩ :: frames, base, entered⟩) := rfl

theorem SourceStack.openPrimary_of_found {fs : FileSystem} {path : Text} {l : Location} {e : Entry}
    (h : fs.lookup (Path.join fs.workingPath (Text.unquote path)) = .found l e) :
    openPrimary fs path = .ok
      { frames := [⟨Text.unquote path, 0, Content.ofEntry e⟩]
        base := Path.parent (Path.join fs.workingPath (Text.unquote path))
        entered := [l] } := by
  rw [openPrimary, h]
  rfl

/-- A program that goes to no address is moved to the address of a directive that is put in front of it, whether the
program is a text or a file: the same messages come, segments, symbols and the words in the places of uses are moved,
and all other words are the same. -/
theorem Assembly.run_relocated (x offset : Text) (address : Word)
    (hparse : Address.parse? (Address.bracketed x) = some ⟨none, some offset⟩)
    (hvalue : Literal.integer offset = .ok address) (memorySize : Nat) :
    (∀ fs base name text, '\n' ∉ x →
      (∀ v ∈ visits fs memorySize (.ofText base name text), (v.1.statement v.2).isMove = false) →
      Report.Relocated address (history fs memorySize (.ofText base name text))
        (run fs memorySize (.ofText base name text))
        (run fs memorySize (.ofText base name (Directive.orgLine x ++ "\n" ++ text)))) ∧
    ∀ fs path location bytes first,
      fs.lookup (Path.join fs.workingPath (Text.unquote path)) = .found location (.file bytes) →
      Line.ofBytes (first ++ [0x0A]) = [Directive.orgLine x] →
      ∃ source source',
        SourceStack.openPrimary fs path = .ok source ∧
        SourceStack.openPrimary (fs.put location (.file (first ++ 0x0A :: bytes))) path = .ok source' ∧
        ((∀ v ∈ visits fs memorySize source, (v.1.statement v.2).isMove = false) →
          Report.Relocated address (history fs memorySize source) (run fs memorySize source)
            (run (fs.put location (.file (first ++ 0x0A :: bytes))) memorySize source')) := by
  constructor
  · intro fs base name text hx hmove
    have hlines : Line.ofText (Directive.orgLine x ++ "\n" ++ text) = Directive.orgLine x :: Line.ofText text := by
      have hline : Directive.orgLine x = ".org" ++ " " ++ ("[" ++ x) ++ [']'] := by
        rw [List.append_assoc _ _ [']']]
        rfl
      rw [hline, List.append_assoc]
      refine Line.ofText_append_line ?_ (by decide) text
      simp only [List.mem_append, not_or]
      exact ⟨⟨⟨by decide, by decide⟩, by decide, hx⟩, by decide⟩
    have hsource : SourceStack.ofText base name (Directive.orgLine x ++ "\n" ++ text) =
        ⟨[⟨name, 0, .lines (Directive.orgLine x :: Line.ofText text)⟩], base, []⟩ := by
      rw [SourceStack.ofText, hlines]
    rw [hsource]
    exact relocated_run (SourceStack.next_lines ..) (process_orgLine hparse hvalue memorySize rfl) rfl (.refl _ fs)
      hmove
  · intro fs path location bytes first hfound hfirst
    have hentry := FileSystem.entry?_of_found hfound
    have hworking : (fs.put location (.file (first ++ 0x0A :: bytes))).workingPath = fs.workingPath := by
      rw [FileSystem.workingPath, FileSystem.workingDirectory_put, FileSystem.workingPath]
    have hfound' : (fs.put location (.file (first ++ 0x0A :: bytes))).lookup
        (Path.join (fs.put location (.file (first ++ 0x0A :: bytes))).workingPath (Text.unquote path)) =
          .found location (.file (first ++ 0x0A :: bytes)) := by
      rw [hworking, FileSystem.lookup_put_file hentry, hfound]
      simp
    have hlines : Line.ofBytes (first ++ 0x0A :: bytes) = Directive.orgLine x :: Line.ofBytes bytes := by
      rw [Line.ofBytes] at hfirst
      rw [Line.ofBytes, Line.cut_append, List.map_append, hfirst]
      rfl
    have hopened' := SourceStack.openPrimary_of_found hfound'
    rw [hworking, Content.ofEntry, hlines] at hopened'
    refine ⟨_, _, SourceStack.openPrimary_of_found hfound, hopened', ?_⟩
    intro hmove
    exact relocated_run (SourceStack.next_lines ..) (process_orgLine hparse hvalue memorySize rfl) rfl
      (FileSystem.agree_put_file hentry _) hmove

/-- Two jumps to a label, one before its definition and one behind it, moved to address 16 as a text and as a file. -/
theorem Assembly.run_relocated_loop :
    let program : Text := "jmp end\nend: jmp end"
    let fs : FileSystem := ⟨[([], .directory), (["loop"], .file program.toBytes)], []⟩
    let fs' := fs.put ["loop"] (.file ((Directive.orgLine "0x10").toBytes ++ 0x0A :: program.toBytes))
    Report.Relocated 0x10 (history fs 8 (.ofText "" "loop" program)) (run fs 8 (.ofText "" "loop" program))
      (run fs 8 (.ofText "" "loop" (Directive.orgLine "0x10" ++ "\n" ++ program))) ∧
    ∃ source source',
      SourceStack.openPrimary fs "loop" = .ok source ∧ SourceStack.openPrimary fs' "loop" = .ok source' ∧
      Report.Relocated 0x10 (history fs 8 source) (run fs 8 source) (run fs' 8 source') := by
  intro program fs fs'
  have hrelocated := run_relocated "0x10" "0x10" 0x10 (by decide) rfl 8
  refine ⟨hrelocated.1 fs "" "loop" program (by decide) (by decide +kernel), ?_⟩
  have hmove : (SourceStack.openPrimary fs "loop").toOption.all fun source =>
      (visits fs 8 source).all fun v => !(v.1.statement v.2).isMove := by
    decide +kernel
  obtain ⟨source, source', hopen, hopen', hmoved⟩ := hrelocated.2 fs "loop" ["loop"] program.toBytes
    (Directive.orgLine "0x10").toBytes (by decide +kernel) (by decide +kernel)
  rw [hopen] at hmove
  exact ⟨source, source', hopen, hopen', hmoved (by simpa [Except.toOption] using hmove)⟩

end R64
