import QueryTemplate.Proofs.File.Boundaries
import QueryTemplate.Proofs.Forward.Method
import QueryTemplate.Proofs.Slicing.File
import QueryTemplate.Proofs.Slicing.Position
import QueryTemplate.Proofs.Slicing.Template
import QueryTemplate.Proofs.Slicing.Token

/-! # Valid places

A compilation reports places of the file only: none runs backward, and all lie between characters.
On the way it cuts texts out of the file and of the templates in it, and every cut is of such a
place, so a compilation never breaks off.
-/

namespace QueryTemplate

/-- The place does not run backward, and both its ends lie between characters of the text. -/
structure Span.ValidIn (text : Text) (s : Span) : Prop where
  start_le_stop : s.start ≤ s.stop
  stop_le_size : s.stop ≤ text.size
  start : text.IsCut s.start
  stop : text.IsCut s.stop

structure Method.ValidIn (text : Text) (m : Method) : Prop where
  span : m.span.ValidIn text
  fields : ∀ f ∈ m.fields, f.span.ValidIn text
  tables : ∀ t ∈ m.tables, t.span.ValidIn text

/-- Every place in the fault is valid, and the fault is shown where its place starts. -/
structure FileFault.ValidIn (text : Text) (f : FileFault) : Prop where
  span : f.fault.span.ValidIn text
  first : ∀ name first, f.fault.value = .duplicateMethod name first → first.ValidIn text
  offset : f.offset = f.fault.span.start

/-- No cut fails when the template is read, whatever it is read for: its tokens, the stretch from
any of them to the next closing brace, its placeholders, and the segments it is divided into. -/
structure Fragment.CutsSafely (markers : Markers) (template : Fragment) : Prop where
  tokens : Lexicon.sql.readAt? template (template.text.length + 1) template.offset =
    some (Lexicon.sql.read template)
  braces : ∀ opening later, (opening :: later).Sublist (Lexicon.sql.read template).tokens →
    let q : Query := ⟨template, (Lexicon.sql.read template).fault⟩
    (q.braces? opening later).Yields (q.braces opening later)
  placeholders : (Segment.resolveAt? markers template template.span).Yields
    (Segment.resolve markers template)
  segments : (Segment.divideAt? markers template).Yields (Segment.divide markers template)

/-- No cut fails when the file is compiled: it can be divided into methods, the templates of the
methods can be read, and any offset can be shown by its line and its column. -/
structure Compiler.CutsSafely (compiler : Compiler) (text : Text) : Prop where
  methods : (MethodSource.splitFile? text).Yields (MethodSource.split text)
  templates : ∀ sources, MethodSource.split text = .ok sources →
    ∀ source ∈ sources, source.body.CutsSafely compiler.markers
  positions : ∀ offset, Position.at? text offset = some (.ofOffset text offset)

variable {text : Text}

theorem Span.validIn {s : Span} (hcuts : Aligned (.cuts text) s s) (hforward : Forward s) :
    s.ValidIn text :=
  ⟨hforward, hcuts.stop.2.le, hcuts.start.2, hcuts.stop.2⟩

theorem Method.validIn {m : Method} (hcuts : Aligned (.cuts text) m m) (hforward : Forward m) :
    m.ValidIn text := by
  obtain ⟨hfields, htables, hspan⟩ := hforward
  refine ⟨Span.validIn hcuts.span hspan, fun f hf => ?_, fun t ht => ?_⟩
  · exact Span.validIn (List.forall₂_same.1 hcuts.fields f hf).span (hfields f hf)
  · exact Span.validIn (List.forall₂_same.1 hcuts.tables t ht).span (htables t ht)

theorem FileFault.validIn_locate (path : Path) {fault : MethodFault}
    (hcuts : Aligned (.cuts text) fault fault) (hforward : Forward fault) :
    (locate path text fault).ValidIn text := by
  have hspan := Span.validIn hcuts.span hforward.2
  refine ⟨hspan, fun name first hfirst => ?_, Nat.min_eq_left hspan.start.le⟩
  obtain ⟨cause, span⟩ := fault
  obtain rfl : cause = .duplicateMethod name first := hfirst
  exact Span.validIn hcuts.value.2 hforward.1

theorem Fragment.cutsSafely (markers : Markers) (template : Fragment) :
    template.CutsSafely markers := by
  refine ⟨?_, fun opening later hlater => ?_, ?_, Segment.divideAt?_yields markers template⟩
  · exact Lexicon.readAt?_eq _ (.start template) (Nat.lt_succ_self _)
  · exact Query.braces?_yields ((Query.holds_read template).sublist hlater)
  · have hwhole := RestAt.start template
    rw [← List.append_nil template.text] at hwhole
    exact Segment.resolveAt?_yields markers hwhole

theorem Compiler.cutsSafely (compiler : Compiler) (text : Text) : compiler.CutsSafely text :=
  ⟨MethodSource.splitFile?_yields text, fun _ _ source _ => source.body.cutsSafely _,
    Position.at?_eq text⟩

/-- **Every place that compiling a file reports is valid, and no cut fails on the way.** The places
of the methods, of their fields and of their tables do not run backward, and they lie between
characters of the file; so do the place of a fault and the one of the first method of a name that
is taken twice, and the fault is shown where its place starts. -/
theorem Compiler.compileFile_validIn (compiler : Compiler) (path : Path) (text : Text)
    (s : Session) :
    (match (compiler.compileFile path text s).1 with
      | .ok file => ∀ m ∈ file.methods, m.ValidIn text
      | .error fault => fault.ValidIn text) ∧
    compiler.CutsSafely text := by
  refine ⟨?_, compiler.cutsSafely text⟩
  have hcuts := compiler.aligned_compileText_cuts text s
  have hforward := compiler.forward_compileText text s
  rw [compileFile_run]
  generalize (compiler.compileText text s).1 = outcome at hcuts hforward
  cases hcuts with
  | ok hmethods => exact fun m hm =>
      Method.validIn (List.forall₂_same.1 hmethods m hm) (hforward m hm)
  | error hfault => exact FileFault.validIn_locate path hfault hforward

end QueryTemplate
