import Mathlib.Data.List.Nodup
import XmlConformance.Proofs.Xml.Unlabelled

/-!
# Proofs/Xml/Calls — what a writer writes, call by call

A writer is told what to write by one call after the other (`Writer.Call`). It keeps the text
written so far and the names of the open elements, and nothing of the tree that the calls describe.
Still there is one: behind any calls that are admissible the state of the writer is that of a
`Sketch`, a tree of which some elements are open (`Sketch.writer_call`), and the calls are those
that write this tree, once the ends that are missing are added (`Writer.exists_fragment`).
-/

namespace XmlConformance.Xml

namespace Writer

/-- A call of a writer. -/
inductive Call where
  | start (name : String)
  | attr (name value : String)
  | text (value : String)
  | endElement
deriving DecidableEq, Repr

/-- What a writer does when it is called. -/
def call (w : Writer) : Call → Writer
  | .start name => w.start name
  | .attr name value => w.attr name value
  | .text s => w.text s
  | .endElement => w.endElement

/-- **The text that some calls write.** -/
def written (calls : List Call) : String := (calls.foldl call empty).finish

/-! ## Admissible calls -/

/-- Where a writer is between two calls. -/
structure Stage where
  /-- How many elements are open. -/
  opened : ℕ
  /-- The names of the attributes in the start tag that may get more of them. -/
  attributes : Option (List String)
  /-- Whether the root element was started. -/
  started : Bool

namespace Stage

/-- Nothing was called. -/
def initial : Stage := ⟨0, none, false⟩

/-- Behind a call. -/
def next (s : Stage) : Call → Stage
  | .start _ => ⟨s.opened + 1, some [], true⟩
  | .attr name _ => { s with attributes := s.attributes.map (· ++ [name]) }
  | .text _ => { s with attributes := none }
  | .endElement => ⟨s.opened - 1, none, s.started⟩

/-- **Whether a call may come next**: one root element is started, attributes follow the start of
an element or another attribute of it with a different name, text stands in an element, names are
names without a colon, and values and texts are made of characters of XML. An end is always allowed;
it does nothing where no element is open. -/
def Allows (s : Stage) : Call → Prop
  | .start name => IsName name ∧ (s.opened = 0 → s.started = false)
  | .attr name value => (∃ names ∈ s.attributes, name ∉ names) ∧ IsName name ∧ XmlText value
  | .text value => 0 < s.opened ∧ XmlText value
  | .endElement => True

/-- Each call may come, and in the end the root element was started. -/
def AllowsAll : Stage → List Call → Prop
  | s, [] => s.started = true
  | s, c :: calls => s.Allows c ∧ (s.next c).AllowsAll calls

end Stage

/-- **Calls that write a document.** -/
def Admissible (calls : List Call) : Prop := Stage.initial.AllowsAll calls

/-- Calls with an end for every element that they start: where some elements are open, surplus ends
are left out, and missing ones are added. -/
def Call.balanced : ℕ → List Call → List Call
  | opened, [] => List.replicate opened .endElement
  | 0, .endElement :: calls => balanced 0 calls
  | opened + 1, .endElement :: calls => .endElement :: balanced opened calls
  | opened, .start name :: calls => .start name :: balanced (opened + 1) calls
  | opened, .attr name value :: calls => .attr name value :: balanced opened calls
  | opened, .text s :: calls => .text s :: balanced opened calls

end Writer

open Writer (Call Stage)

namespace Fragment

mutual

/-- **The calls that write a fragment.** -/
def calls : Fragment → List Call
  | .text s => [.text s]
  | .element name attributes content =>
    .start name :: (attributes.map (fun a => .attr a.1 a.2) ++ (callsOf content ++ [.endElement]))

/-- The calls that write fragments. -/
def callsOf : List Fragment → List Call
  | [] => []
  | f :: fs => f.calls ++ callsOf fs

end

theorem callsOf_append (fs gs : List Fragment) : callsOf (fs ++ gs) = callsOf fs ++ callsOf gs := by
  induction fs with
  | nil => rfl
  | cons f fs ih => rw [List.cons_append, callsOf, callsOf, ih, List.append_assoc]

theorem charsOf_append (fs gs : List Fragment) : charsOf (fs ++ gs) = charsOf fs ++ charsOf gs := by
  induction fs with
  | nil => rfl
  | cons f fs ih => rw [List.cons_append, charsOf, charsOf, ih, List.append_assoc]

end Fragment

/-! ## Sketches -/

/-- An element that is open, with what was written in it. -/
structure OpenElement where
  name : String
  attributes : List (String × String)
  content : List Fragment

namespace OpenElement

/-- The element when it is ended. -/
def fragment (e : OpenElement) : Fragment := .element e.name e.attributes e.content

/-- What is written of an element in which another one is open. -/
def entered (e : OpenElement) : List Char :=
  tagChars e.name e.attributes ++ '>' :: Fragment.charsOf e.content

/-- What is written of the innermost open element. Its start tag is ended by what follows it. -/
def begun (e : OpenElement) : List Char :=
  tagChars e.name e.attributes ++
    if e.content.isEmpty then [] else '>' :: Fragment.charsOf e.content

/-- The calls that write what is written of an open element. -/
def calls (e : OpenElement) : List Call :=
  .start e.name :: (e.attributes.map (fun a => .attr a.1 a.2) ++ Fragment.callsOf e.content)

theorem calls_fragment (e : OpenElement) : e.fragment.calls = e.calls ++ [.endElement] := by
  simp [fragment, Fragment.calls, calls]

end OpenElement

/-- **A tree that is being written**: the open elements, innermost first, and what was written
outside all of them. -/
structure Sketch where
  opened : List OpenElement
  done : List Fragment

namespace Sketch

/-- Nothing written. -/
def empty : Sketch := ⟨[], []⟩

/-- Adds a fragment to the innermost open element. -/
def add (s : Sketch) (f : Fragment) : Sketch :=
  match s.opened with
  | [] => { s with done := s.done ++ [f] }
  | e :: outer => { s with opened := { e with content := e.content ++ [f] } :: outer }

/-- What a call does to the tree that is being written. -/
def call (s : Sketch) : Call → Sketch
  | .start name => { s with opened := ⟨name, [], []⟩ :: s.opened }
  | .attr name value =>
    match s.opened with
    | [] => s
    | e :: outer =>
      { s with opened := { e with attributes := e.attributes ++ [(name, value)] } :: outer }
  | .text value => s.add (.text value)
  | .endElement =>
    match s.opened with
    | [] => s
    | e :: outer => add { s with opened := outer } e.fragment

/-- Whether the innermost start tag may still get attributes. -/
def inTag (s : Sketch) : Bool := s.opened.head?.any (·.content.isEmpty)

/-- What is written in front of the innermost open element. -/
def entered (s : Sketch) : List Char :=
  Fragment.charsOf s.done ++ s.opened.reverse.flatMap OpenElement.entered

/-- What is written. -/
def chars (s : Sketch) : List Char :=
  match s.opened with
  | [] => Fragment.charsOf s.done
  | e :: outer => entered { s with opened := outer } ++ e.begun

/-- The calls that write what is written. -/
def calls (s : Sketch) : List Call :=
  Fragment.callsOf s.done ++ s.opened.reverse.flatMap OpenElement.calls

/-- **The writer that wrote a sketch.** -/
def writer (s : Sketch) : Writer :=
  ⟨String.ofList s.chars, s.opened.map (·.name), s.inTag⟩

/-- Where the writer of a sketch is. -/
def stage (s : Sketch) : Stage where
  opened := s.opened.length
  attributes := (s.opened.head?.filter (·.content.isEmpty)).map (·.attributes.map (·.1))
  started := !(s.opened.isEmpty && s.done.isEmpty)

variable {s : Sketch} {c : Call}

/-- An attribute only comes where a start tag may get more of them. -/
theorem opened_of_allows_attr {name value : String} (h : s.stage.Allows (.attr name value)) :
    ∃ element attributes outer, s.opened = ⟨element, attributes, []⟩ :: outer ∧
      name ∉ attributes.map (·.1) := by
  obtain ⟨⟨names, hnames, hnew⟩, -, -⟩ := h
  obtain ⟨opened, done⟩ := s
  cases opened with
  | nil => cases hnames
  | cons e outer =>
    obtain ⟨element, attributes, content⟩ := e
    cases content with
    | cons f fs => cases hnames
    | nil =>
      obtain rfl := Option.some.inj hnames
      exact ⟨element, attributes, outer, rfl, hnew⟩

/-! ## The writer of a sketch -/

/-- What is written in an element ends its start tag. -/
theorem closeTag_writer (s : Sketch) :
    s.writer.closeTag = ⟨String.ofList s.entered, s.opened.map (·.name), false⟩ := by
  obtain ⟨opened, done⟩ := s
  cases opened with
  | nil => simp [writer, chars, entered, inTag, Writer.closeTag]
  | cons e outer =>
    obtain ⟨name, attributes, content⟩ := e
    cases content with
    | nil =>
      rw [writer, show inTag _ = true from rfl, Writer.closeTag_of_inTag]
      simp [chars, entered, OpenElement.begun, OpenElement.entered, Fragment.charsOf,
        ← String.toList_inj]
    | cons f fs =>
      rw [writer, show inTag _ = false from rfl, Writer.closeTag_of_not_inTag]
      simp [chars, entered, OpenElement.begun, OpenElement.entered]

theorem writer_add (s : Sketch) (f : Fragment) :
    (s.add f).writer =
      ⟨String.ofList (s.entered ++ f.chars), s.opened.map (·.name), false⟩ := by
  obtain ⟨opened, done⟩ := s
  cases opened with
  | nil => simp [add, writer, chars, entered, inTag, Fragment.charsOf_append, Fragment.charsOf]
  | cons e outer =>
    simp [add, writer, chars, entered, inTag, OpenElement.begun, OpenElement.entered,
      Fragment.charsOf_append, Fragment.charsOf]

/-- **A writer keeps to the sketch**: what a call makes it write is what the call adds. -/
theorem writer_call (h : s.stage.Allows c) : (s.call c).writer = s.writer.call c := by
  obtain ⟨opened, done⟩ := s
  cases c with
  | start name =>
    rw [Writer.call, Writer.start_eq, closeTag_writer]
    simp [call, writer, chars, entered, inTag, OpenElement.begun, tagChars, ← String.toList_inj]
  | attr name value =>
    obtain ⟨element, attributes, outer, rfl, -⟩ := opened_of_allows_attr h
    rw [Writer.call, Writer.attr_eq _ (name, value)]
    simp [call, writer, chars, inTag, OpenElement.begun, tagChars, ← String.toList_inj]
  | text value =>
    rw [Writer.call, Writer.text_eq, closeTag_writer, call, writer_add]
    simp [Fragment.chars, writer]
  | endElement =>
    cases opened with
    | nil => rfl
    | cons e outer =>
      obtain ⟨name, attributes, content⟩ := e
      rw [call, writer_add, Writer.call, writer]
      cases content with
      | nil =>
        rw [show inTag _ = true from rfl, List.map_cons, Writer.endElement_of_inTag]
        simp [chars, OpenElement.begun, OpenElement.fragment, Fragment.chars, ← String.toList_inj]
      | cons f fs =>
        rw [show inTag _ = false from rfl, List.map_cons, Writer.endElement_of_not_inTag]
        simp [chars, OpenElement.begun, OpenElement.fragment, Fragment.chars, Fragment.charsOf,
          ← String.toList_inj]

/-! ## The calls of a sketch -/

@[simp] theorem length_opened_add (s : Sketch) (f : Fragment) :
    (s.add f).opened.length = s.opened.length := by
  obtain ⟨opened, done⟩ := s
  cases opened <;> rfl

theorem calls_add (s : Sketch) (f : Fragment) : (s.add f).calls = s.calls ++ f.calls := by
  obtain ⟨opened, done⟩ := s
  cases opened with
  | nil => simp [add, calls, Fragment.callsOf_append, Fragment.callsOf]
  | cons e outer =>
    simp [add, calls, OpenElement.calls, Fragment.callsOf_append, Fragment.callsOf]

/-- **A sketch is written by the calls that made it**, but for surplus ends. -/
theorem calls_call (h : s.stage.Allows c) (calls : List Call) :
    (s.call c).calls ++ Call.balanced (s.call c).opened.length calls =
      s.calls ++ Call.balanced s.opened.length (c :: calls) := by
  obtain ⟨opened, done⟩ := s
  cases c with
  | start name => simp [call, Sketch.calls, OpenElement.calls, Call.balanced, Fragment.callsOf]
  | attr name value =>
    obtain ⟨element, attributes, outer, rfl, -⟩ := opened_of_allows_attr h
    simp [call, Sketch.calls, OpenElement.calls, Call.balanced, Fragment.callsOf]
  | text value =>
    rw [call, calls_add]
    simp [Call.balanced, Fragment.calls]
  | endElement =>
    cases opened with
    | nil => simp [call, Call.balanced]
    | cons e outer =>
      rw [call, calls_add, OpenElement.calls_fragment]
      simp [Sketch.calls, Call.balanced]

/-! ## Sketches without labels -/

/-- A sketch that can be read: nothing in it has a label, and outside all other elements there is
one at most, and no text. -/
structure Plain (s : Sketch) : Prop where
  opened : ∀ e ∈ s.opened, e.fragment.Plain
  done : Fragment.AllPlain s.done
  roots : s.done = [] ∨ s.opened = [] ∧ ∃ e : OpenElement, s.done = [e.fragment]

namespace Plain

theorem empty : Sketch.empty.Plain := ⟨nofun, trivial, .inl rfl⟩

theorem done_eq_nil (h : s.Plain) (hopened : s.opened ≠ []) : s.done = [] :=
  h.roots.resolve_right fun hroot => hopened hroot.1

/-- Something is added to an open element. -/
theorem add (h : s.Plain) (hopened : s.opened ≠ []) {f : Fragment} (hf : f.Plain) :
    (s.add f).Plain := by
  obtain ⟨opened, done⟩ := s
  cases opened with
  | nil => exact absurd rfl hopened
  | cons e outer =>
    have helements := List.forall_mem_cons.1 h.opened
    obtain ⟨hname, hattributes, hnodup, hcontent⟩ := helements.1
    refine ⟨List.forall_mem_cons.2 ⟨⟨hname, hattributes, hnodup, ?_⟩, helements.2⟩, h.done,
      .inl (h.done_eq_nil hopened)⟩
    exact hcontent.append ⟨hf, trivial⟩

/-- **A call that is allowed** keeps a sketch readable. -/
theorem call (hs : s.Plain) (h : s.stage.Allows c) : (s.call c).Plain := by
  obtain ⟨opened, done⟩ := s
  cases c with
  | start name =>
    obtain ⟨hname, hroot⟩ := h
    refine ⟨List.forall_mem_cons.2 ⟨⟨hname, nofun, .nil, trivial⟩, hs.opened⟩, hs.done, .inl ?_⟩
    refine hs.roots.resolve_right ?_
    rintro ⟨hopened, e, hdone⟩
    have hstarted := hroot (congrArg List.length hopened)
    rw [stage, hdone, List.isEmpty_cons, Bool.and_false] at hstarted
    cases hstarted
  | attr name value =>
    obtain ⟨element, attributes, outer, rfl, hnew⟩ := opened_of_allows_attr h
    obtain ⟨-, hname, hvalue⟩ := h
    obtain ⟨⟨helement, hattributes, hnodup, hcontent⟩, houter⟩ := List.forall_mem_cons.1 hs.opened
    refine ⟨List.forall_mem_cons.2 ⟨⟨helement, ?_, ?_, hcontent⟩, houter⟩, hs.done,
      .inl (hs.done_eq_nil (List.cons_ne_nil _ _))⟩
    · rw [List.forall_mem_append, List.forall_mem_singleton]
      exact ⟨hattributes, hname, hvalue⟩
    · rw [List.map_append]
      exact List.nodup_append_comm.1 (List.nodup_cons.2 ⟨hnew, hnodup⟩)
  | text value => exact hs.add (List.ne_nil_of_length_pos h.1) h.2
  | endElement =>
    cases opened with
    | nil => exact hs
    | cons e outer =>
      obtain rfl : done = [] := hs.done_eq_nil (List.cons_ne_nil _ _)
      obtain ⟨he, houter⟩ := List.forall_mem_cons.1 hs.opened
      cases outer with
      | nil => exact ⟨nofun, ⟨he, trivial⟩, .inr ⟨rfl, e, rfl⟩⟩
      | cons e' outer =>
        have hrest : (⟨e' :: outer, []⟩ : Sketch).Plain := ⟨houter, trivial, .inl rfl⟩
        exact hrest.add (List.cons_ne_nil _ _) he

end Plain

theorem stage_call (h : s.stage.Allows c) : (s.call c).stage = s.stage.next c := by
  obtain ⟨opened, done⟩ := s
  cases c with
  | start name => rfl
  | attr name value =>
    obtain ⟨element, attributes, outer, rfl, -⟩ := opened_of_allows_attr h
    simp [call, stage, Stage.next, Option.filter]
  | text value =>
    cases opened with
    | nil => cases h.1
    | cons e outer => simp [call, add, stage, Stage.next]
  | endElement =>
    cases opened with
    | nil => rfl
    | cons e outer => cases outer <;> simp [call, add, stage, Stage.next]

/-! ## All calls -/

/-- The sketch behind some calls. -/
def run (s : Sketch) (calls : List Call) : Sketch := calls.foldl call s

/-- **What holds behind calls that are allowed.** -/
theorem run_spec : ∀ (calls : List Call) {s : Sketch}, s.Plain → s.stage.AllowsAll calls →
    (s.run calls).Plain ∧ (s.run calls).stage.started = true ∧
      (s.run calls).writer = calls.foldl Writer.call s.writer ∧
      (s.run calls).calls ++ List.replicate (s.run calls).opened.length .endElement =
        s.calls ++ Call.balanced s.opened.length calls
  | [], s, hs, h => ⟨hs, h, rfl, by rw [Call.balanced]; rfl⟩
  | c :: calls, s, hs, ⟨hc, h⟩ => by
    rw [← stage_call hc] at h
    obtain ⟨hplain, hstarted, hwriter, hcalls⟩ := run_spec calls (hs.call hc) h
    rw [calls_call hc, writer_call hc] at *
    exact ⟨hplain, hstarted, hwriter, hcalls⟩

theorem length_opened_endElement (s : Sketch) :
    (s.call .endElement).opened.length = s.opened.length - 1 := by
  obtain ⟨opened, done⟩ := s
  cases opened with
  | nil => rfl
  | cons e outer =>
    rw [call, length_opened_add]
    rfl

/-- Enough ends end every element. -/
theorem length_opened_run_endElement : ∀ (n : ℕ) (s : Sketch),
    (s.run (List.replicate n .endElement)).opened.length = s.opened.length - n
  | 0, _ => rfl
  | n + 1, s => by
    rw [List.replicate_succ, run, List.foldl_cons, ← run, length_opened_run_endElement n,
      length_opened_endElement]
    omega

end Sketch

namespace Writer

theorem Stage.allowsAll_endElement : ∀ (n : ℕ) {s : Stage}, s.started = true →
    s.AllowsAll (List.replicate n .endElement)
  | 0, _, h => h
  | n + 1, _, h => ⟨trivial, allowsAll_endElement n h⟩

theorem Call.balanced_endElement : ∀ n : ℕ,
    balanced n (List.replicate n .endElement) = List.replicate n .endElement
  | 0 => rfl
  | n + 1 => by rw [List.replicate_succ, balanced, balanced_endElement n]

/-- To finish is to end every open element. -/
theorem finish_eq (w : Writer) :
    w.finish = ((List.replicate w.opened.length .endElement).foldl call w).output := by
  have hfold : ∀ (l : List String) (v : Writer), l.foldl (fun w _ => w.endElement) v =
      (List.replicate l.length .endElement).foldl call v := by
    intro l
    induction l with
    | nil => exact fun _ => rfl
    | cons _ l ih => exact fun v => ih v.endElement
  rw [finish, hfold]

/-- **Admissible calls write a fragment**, and with the ends that are missing they are the calls
that write it. -/
theorem exists_fragment {calls : List Call} (h : Admissible calls) :
    ∃ e : OpenElement, e.fragment.Plain ∧ written calls = e.fragment.render ∧
      e.fragment.calls = Call.balanced 0 calls := by
  obtain ⟨hplain, hstarted, hwriter, hcalls⟩ := Sketch.run_spec calls .empty h
  set s := Sketch.empty.run calls
  obtain ⟨hplain, hstarted, hended, hcalls'⟩ := Sketch.run_spec
    (List.replicate s.opened.length .endElement) hplain (Stage.allowsAll_endElement _ hstarted)
  set t := s.run (List.replicate s.opened.length .endElement)
  have hopened : t.opened = [] := by
    rw [← List.length_eq_zero_iff, Sketch.length_opened_run_endElement, Nat.sub_self]
  rcases hplain.roots with hdone | ⟨-, e, hdone⟩
  · rw [Sketch.stage, hopened, hdone] at hstarted
    cases hstarted
  have htext : t.writer.output = e.fragment.render := by
    rw [← String.toList_inj, Fragment.toList_render, Sketch.writer, Sketch.chars, hopened, hdone]
    simp [Fragment.charsOf]
  refine ⟨e, hdone ▸ hplain.done |>.1, ?_, ?_⟩
  · have hempty : Sketch.empty.writer = empty := rfl
    have hcount : s.writer.opened.length = s.opened.length := List.length_map _
    rw [written, ← hempty, ← hwriter, finish_eq, hcount, ← hended, htext]
  · rw [Call.balanced_endElement, hcalls, hopened] at hcalls'
    simpa [Sketch.calls, Sketch.empty, hopened, hdone, Fragment.callsOf] using hcalls'

end Writer

end XmlConformance.Xml
