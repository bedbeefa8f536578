import R64.Proofs.Run
import R64.Proofs.Transport
/-!
Sessions that are moved against each other: they read the same lines at different origins and perhaps under different
line numbers. Line numbers are left out of the comparison; up to them, one session is the transport of the other. Main
statement: this stays so to the end of the scan, as long as no line goes to an address of its own.
-/
namespace R64

def Line.unnumbered (l : Line) : Line := { l with number := 0 }

namespace SourceStack

/-- The stack with every source counted from the start. -/
def unnumbered (s : SourceStack) : SourceStack := { s with frames := s.frames.map fun f => { f with taken := 0 } }

theorem take_congr {frames frames' : List Frame}
    (h : frames.map (fun f => { f with taken := 0 }) = frames'.map fun f => { f with taken := 0 }) :
    (take frames).1.map (Except.map Line.unnumbered) = (take frames').1.map (Except.map Line.unnumbered) ∧
      (take frames).2.map (fun f => { f with taken := 0 }) =
        (take frames').2.map fun f => { f with taken := 0 } := by
  induction frames generalizing frames' with
  | nil =>
    cases frames' with
    | nil => exact ⟨rfl, rfl⟩
    | cons f' fs' => cases h
  | cons f fs ih =>
    cases frames' with
    | nil => cases h
    | cons f' fs' =>
      obtain ⟨name, taken, content⟩ := f
      obtain ⟨name', taken', content'⟩ := f'
      simp only [List.map_cons, List.cons.injEq, Frame.mk.injEq, true_and] at h
      obtain ⟨⟨rfl, rfl⟩, hfs⟩ := h
      match content with
      | .unreadable => exact ⟨rfl, hfs⟩
      | .lines [] =>
        have hrest := ih hfs
        simpa only [take] using hrest
      | .lines (text :: rest) => exact ⟨rfl, by simp [take, hfs]⟩

theorem next_congr {s t : SourceStack} (h : s.unnumbered = t.unnumbered) :
    s.next.1.map (Except.map Line.unnumbered) = t.next.1.map (Except.map Line.unnumbered) ∧
      s.next.2.unnumbered = t.next.2.unnumbered := by
  obtain ⟨hframes, hbase, hentered⟩ := SourceStack.mk.inj h
  obtain ⟨hitem, hrest⟩ := take_congr hframes
  refine ⟨hitem, ?_⟩
  simp only [next, unnumbered, SourceStack.mk.injEq]
  exact ⟨hrest, hbase, hentered⟩

end SourceStack

/-- Two file systems between which no run can tell that has entered these locations: where a path leads to different
things, it leads to one of them. -/
def FileSystem.Agree (entered : List Location) (fs fs' : FileSystem) : Prop :=
  ∀ path, fs.lookup path = fs'.lookup path ∨
    ∃ l e e', l ∈ entered ∧ fs.lookup path = .found l e ∧ fs'.lookup path = .found l e'

theorem FileSystem.Agree.refl (entered : List Location) (fs : FileSystem) : Agree entered fs fs :=
  fun _ => .inl rfl

theorem FileSystem.Agree.mono {entered entered' : List Location} {fs fs' : FileSystem}
    (h : Agree entered fs fs') (hsub : ∀ l ∈ entered, l ∈ entered') : Agree entered' fs fs' := by
  intro path
  rcases h path with heq | ⟨l, e, e', hl, hfs, hfs'⟩
  · exact .inl heq
  · exact .inr ⟨l, e, e', hsub l hl, hfs, hfs'⟩

namespace Session

/-- `t` is `s` moved by a distance, up to line numbers. -/
structure Moved (distance : Word) (s t : Session) : Prop where
  source : s.source.unnumbered = t.source.unnumbered
  assembly : s.assembly.transport distance Line.unnumbered = t.assembly.transport 0 Line.unnumbered

end Session

namespace Assembly

variable {distance : Word} {a b : Assembly}

theorem macros_of_moved (h : a.transport distance Line.unnumbered = b.transport 0 Line.unnumbered) :
    a.macros = b.macros := by
  have hmacros := congrArg Assembly.macros h
  exact hmacros

/-- Two assemblies that are moved against each other stay so when they process the same text. -/
theorem process_moved (h : a.transport distance Line.unnumbered = b.transport 0 Line.unnumbered) (memorySize : Nat)
    {line line' : Line} (hline : line.unnumbered = line'.unnumbered) (hmove : (a.statement line).isMove = false) :
    (a.process memorySize line).1.transport distance Line.unnumbered =
        (b.process memorySize line').1.transport 0 Line.unnumbered ∧
      (a.process memorySize line).2 = (b.process memorySize line').2 := by
  have htext : line'.text = line.text := (congrArg Line.text hline).symm
  have htokens : b.tokens line' = a.tokens line := by rw [tokens, tokens, htext, macros_of_moved h]
  have hprocess : b.process memorySize line' = b.processTokens memorySize line' (a.tokens line) := by
    rw [← htokens]
    rfl
  have hleft := processTokens_transport distance Line.unnumbered memorySize a line (a.tokens line) hmove
  have hright := processTokens_transport 0 Line.unnumbered memorySize b line' (a.tokens line) hmove
  rw [← h, ← hline, hleft] at hright
  rw [hprocess]
  exact Prod.mk.inj hright

end Assembly

namespace SourceStack

/-- What stacks that differ in line numbers only make of agreeing lookups: the same failure, or stacks that again differ
in line numbers only. -/
theorem enter_congr {s t : SourceStack} (h : s.unnumbered = t.unnumbered) (path : Text) {lookup lookup' : Lookup}
    (hlookup : lookup = lookup' ∨
      ∃ l e e', l ∈ s.entered ∧ lookup = .found l e ∧ lookup' = .found l e') :
    (s.enter path lookup).map (fun x => x.2.unnumbered) = (t.enter path lookup').map fun x => x.2.unnumbered := by
  obtain ⟨hframes, hbase, hentered⟩ := SourceStack.mk.inj h
  have htarget : t.target path = s.target path := congrArg (Path.join · (Text.unquote path)) hbase.symm
  rcases hlookup with rfl | ⟨l, e, e', hl, rfl, rfl⟩
  · have hisEntered : t.isEntered (s.target path) lookup = s.isEntered (s.target path) lookup := by
      cases lookup <;> simp [isEntered, names, ← hentered]
    unfold enter
    rw [htarget, hisEntered]
    split
    · exact congrArg Except.ok h
    · cases lookup with
      | found l e => simp [Except.map, unnumbered, hframes, hbase, hentered]
      | nowhere => rfl
      | barred l => rfl
  · have hs : s.isEntered (s.target path) (.found l e) := by simpa [isEntered] using hl
    have ht : t.isEntered (t.target path) (.found l e') := by simpa [isEntered, ← hentered] using hl
    rw [enter, if_pos hs, enter, if_pos ht]
    exact congrArg Except.ok h

theorem subset_entered_enter {s s' : SourceStack} {path : Text} {lookup : Lookup} {new : Bool}
    (h : s.enter path lookup = .ok (new, s')) : ∀ l ∈ s.entered, l ∈ s'.entered := by
  unfold enter at h
  split at h
  · cases h
    exact fun _ hl => hl
  · split at h
    · cases h
      exact fun _ hl => List.mem_cons_of_mem _ hl
    · cases h

end SourceStack

namespace Session

variable {distance : Word} {s t : Session}

theorem Moved.resolve (h : Moved distance s t) {line line' : Line} (hline : line.unnumbered = line'.unnumbered)
    (path : Text) {lookup lookup' : Lookup}
    (hlookup : lookup = lookup' ∨
      ∃ l e e', l ∈ s.source.entered ∧ lookup = .found l e ∧ lookup' = .found l e') :
    Moved distance (s.resolve line path lookup) (t.resolve line' path lookup') := by
  have henter := SourceStack.enter_congr h.source path hlookup
  unfold Session.resolve
  cases hs : s.source.enter path lookup with
  | error fault =>
    cases ht : t.source.enter path lookup' with
    | ok result =>
      rw [hs, ht] at henter
      cases henter
    | error fault' =>
      rw [hs, ht] at henter
      cases henter
      refine ⟨h.source, ?_⟩
      dsimp only
      rw [← Assembly.reject_transport, ← Assembly.reject_transport, h.assembly, hline]
  | ok result =>
    cases ht : t.source.enter path lookup' with
    | error fault' =>
      rw [hs, ht] at henter
      cases henter
    | ok result' =>
      rw [hs, ht] at henter
      exact ⟨Except.ok.inj henter, h.assembly⟩

theorem subset_entered_resolve (s : Session) (line : Line) (path : Text) (lookup : Lookup) :
    ∀ l ∈ s.source.entered, l ∈ (s.resolve line path lookup).source.entered := by
  unfold Session.resolve
  split
  · exact fun _ hl => hl
  · next h => exact SourceStack.subset_entered_enter h

theorem subset_entered_handle (fs : FileSystem) (memorySize : Nat) (s : Session) (item : Except Fault Line) :
    ∀ l ∈ s.source.entered, l ∈ (s.handle fs memorySize item).source.entered := by
  cases item with
  | error fault => exact fun _ hl => hl
  | ok line =>
    rw [handle_ok]
    split
    · exact fun _ hl => hl
    · exact subset_entered_resolve { s with assembly := (s.assembly.process memorySize line).1 } line _ _

/-- A line or failure keeps two sessions moved against each other, unless it goes to an address. -/
theorem Moved.handle (h : Moved distance s t) {fs fs' : FileSystem} (hfs : fs.Agree s.source.entered fs')
    (memorySize : Nat) {item item' : Except Fault Line}
    (hitem : item.map Line.unnumbered = item'.map Line.unnumbered)
    (hmove : ∀ line, item = .ok line → (s.assembly.statement line).isMove = false) :
    Moved distance (s.handle fs memorySize item) (t.handle fs' memorySize item') := by
  cases item with
  | error fault =>
    cases item' with
    | ok line' => cases hitem
    | error fault' =>
      cases hitem
      refine ⟨h.source, ?_⟩
      have hreport (d : Word) (a : Assembly) :
          (a.report [.error fault none]).transport d Line.unnumbered =
            (a.transport d Line.unnumbered).report [.error fault none] :=
        (Assembly.report_transport d Line.unnumbered a [.error fault none]).symm
      change (s.assembly.report _).transport _ _ = (t.assembly.report _).transport _ _
      rw [hreport, hreport, h.assembly]
  | ok line =>
    cases item' with
    | error fault' => cases hitem
    | ok line' =>
      have hline : line.unnumbered = line'.unnumbered := Except.ok.inj hitem
      obtain ⟨hassembly, hpath⟩ := Assembly.process_moved h.assembly memorySize hline (hmove line rfl)
      rw [handle_ok, handle_ok, ← hpath]
      split
      · exact ⟨h.source, hassembly⟩
      · next path _ =>
        have hbase : t.source.base = s.source.base := (congrArg SourceStack.base h.source).symm
        have htarget : t.source.target path = s.source.target path :=
          congrArg (Path.join · (Text.unquote path)) hbase
        have hprocessed : Moved distance { s with assembly := (s.assembly.process memorySize line).1 }
            { t with assembly := (t.assembly.process memorySize line').1 } := ⟨h.source, hassembly⟩
        rw [htarget]
        exact hprocessed.resolve hline path (hfs _)

/-- Sessions that are moved against each other end in assemblies that are so. -/
theorem Moved.scan (h : Moved distance s t) {fs fs' : FileSystem} (hfs : fs.Agree s.source.entered fs')
    (memorySize : Nat) (hmove : ∀ v ∈ s.visits fs memorySize, (v.1.statement v.2).isMove = false) :
    (s.scan fs memorySize).transport distance Line.unnumbered =
      (t.scan fs' memorySize).transport 0 Line.unnumbered := by
  -- the first session leads; the second follows because its sources give the same items up to numbers
  induction s using scan_induction fs memorySize generalizing t with
  | done s source hnext =>
    obtain ⟨hitem, -⟩ := SourceStack.next_congr h.source
    rcases htnext : t.source.next with ⟨item', source'⟩
    rw [hnext, htnext] at hitem
    obtain rfl := Option.map_eq_none_iff.mp hitem.symm
    rw [scan_of_none hnext, scan_of_none htnext]
    exact h.assembly
  | take s item source hnext ih =>
    obtain ⟨hitem, hsource⟩ := SourceStack.next_congr h.source
    rcases htnext : t.source.next with ⟨_ | item', source'⟩
    · rw [hnext, htnext] at hitem
      cases hitem
    rw [hnext, htnext] at hitem hsource
    have hentered : source.entered = s.source.entered := congrArg (·.2.entered) hnext.symm
    rw [scan_of_some hnext, scan_of_some htnext]
    rw [visits_of_some hnext] at hmove
    have hthis : Moved distance { s with source } { t with source := source' } := ⟨hsource, h.assembly⟩
    apply ih
    · refine hthis.handle (by rwa [hentered]) memorySize (Option.some.inj hitem) ?_
      rintro line rfl
      exact hmove (s.assembly, line) (List.mem_append_left _ (List.mem_singleton_self _))
    · refine hfs.mono fun l hl => ?_
      exact subset_entered_handle fs memorySize { s with source } item l (by rwa [hentered])
    · exact fun v hv => hmove v (List.mem_append_right _ hv)

end Session

end R64
