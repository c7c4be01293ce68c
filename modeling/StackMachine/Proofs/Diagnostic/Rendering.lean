import StackMachine.Diagnostic.Renderer

/-!
# What a renderer writes

A renderer writes a diagnostic line by line, and these are its segments one after the other
(`Renderer.render_eq_written`): in colour when its flag is set (`Renderer.render_coloured`), and as
plain text when it is not (`Renderer.render_plain`).
-/

namespace StackMachine
namespace Renderer

open Diagnostic (bare styled remark)

variable {r : Renderer}

/-! ## Segments -/

/-- A segment as a renderer writes it. -/
def segment (r : Renderer) (s : Segment) : String :=
  match s.style with
  | some style => r.paint style s.text
  | none => s.text

@[simp] theorem segment_bare (text : String) : r.segment (bare text) = text := rfl

@[simp] theorem segment_styled (style : Style) (text : String) :
    r.segment (styled style text) = r.paint style text := rfl

/-- Segments as a renderer writes them. -/
def written (r : Renderer) (segments : List Segment) : String :=
  String.join (segments.map r.segment)

@[simp] theorem written_nil : r.written [] = "" := String.join_nil

@[simp] theorem written_cons (s : Segment) (segments : List Segment) :
    r.written (s :: segments) = r.segment s ++ r.written segments := String.join_cons

@[simp] theorem written_append (first second : List Segment) :
    r.written (first ++ second) = r.written first ++ r.written second := by
  simp [written]

theorem written_flatMap {α : Type} (xs : List α) (f : α → List Segment) :
    r.written (xs.flatMap f) = String.join (xs.map fun x => r.written (f x)) := by
  induction xs with
  | nil => rfl
  | cons x xs ih => rw [List.flatMap_cons, written_append, ih, List.map_cons, String.join_cons]

/-! ## Parts -/

theorem heading_eq (d : Diagnostic) : r.heading d = r.written d.heading := by
  unfold heading Diagnostic.heading
  cases d.severity <;> cases d.code <;> simp [Severity.name, String.append_assoc]

theorem written_remark (text : String) :
    r.written (remark text) = "  " ++ r.paint .dim "=" ++ " " ++ text ++ "\n" := by
  simp [remark, String.append_assoc]

theorem excerpt_eq (source : String) (mark : Mark) :
    r.excerpt source mark = r.written (Diagnostic.excerpt source mark) := by
  unfold excerpt Diagnostic.excerpt
  by_cases hmessage : mark.message = "" <;> simp [hmessage, String.append_assoc]

theorem secondary_eq (d : Diagnostic) (mark : Mark) :
    r.secondary d.source mark = r.written (d.secondary mark) := by
  unfold secondary Diagnostic.secondary
  split
  · exact written_nil.symm
  · cases d.source <;> simp [written_remark, String.append_assoc]

theorem primaryExcerpt_eq (d : Diagnostic) :
    r.primaryExcerpt d = r.written d.primaryExcerpt := by
  unfold primaryExcerpt Diagnostic.primaryExcerpt
  cases d.marks.find? (·.isPrimary) with
  | none => exact written_nil.symm
  | some mark =>
    cases d.source with
    | none => exact written_nil.symm
    | some source => exact excerpt_eq source mark

/-! ## Diagnostics -/

/-- **A renderer writes the segments** of a diagnostic, in their order. -/
theorem render_eq_written (r : Renderer) (d : Diagnostic) : r.render d = r.written d.segments := by
  have hsecondary : r.secondary d.source = fun mark => r.written (d.secondary mark) :=
    funext (secondary_eq d)
  have hnote (text : String) : " note: " ++ text = " " ++ ("note: " ++ text) := by
    rw [← String.append_assoc]
    rfl
  have hsuggestion (text : String) : " suggestion: " ++ text = " " ++ ("suggestion: " ++ text) := by
    rw [← String.append_assoc]
    rfl
  rw [render, heading_eq, primaryExcerpt_eq, hsecondary]
  simp only [Diagnostic.segments, written_append, written_flatMap, written_remark]
  congr 1
  · congr 1
    · simp only [String.append_assoc, hnote]
    · cases d.suggestion with
      | none => rfl
      | some suggestion => simp only [written_remark, String.append_assoc, hsuggestion]
  · cases d.isInternal <;> simp [written_remark, String.append_assoc]

/-- With its flag set a renderer writes in colour. -/
theorem render_coloured (d : Diagnostic) : (Renderer.mk true).render d = d.coloured := by
  have hsegment : (Renderer.mk true).segment = Segment.coloured := by
    funext s
    obtain ⟨style, text⟩ := s
    cases style with
    | none => rfl
    | some style => simp [segment, paint, Segment.coloured, controlSequence, String.append_assoc]
  rw [render_eq_written, written, hsegment, Diagnostic.coloured]

/-- Without it the same renderer writes the plain text. -/
theorem render_plain (d : Diagnostic) : (Renderer.mk false).render d = d.plain := by
  have hsegment : (Renderer.mk false).segment = Segment.text := by
    funext s
    obtain ⟨style, text⟩ := s
    cases style <;> rfl
  rw [render_eq_written, written, hsegment, Diagnostic.plain]

end Renderer
end StackMachine
