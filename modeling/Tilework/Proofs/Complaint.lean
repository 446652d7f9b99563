import Tilework.CommandLine.Run
import Tilework.Proofs.OneLine
import Tilework.Proofs.Splitting

/-!
# The error channel

A subscriber writes an event as one line if none of its words holds a line end, and no such line
begins as error lines do. The warnings of a run and the event that it is complete are of this kind.
The words for a fault and the path of the tiles need not be, and then they can look like error lines
of their own.
-/

namespace Tilework.CommandLine

/-- The lines of a text that begin with the mark of error lines, without their line ends. -/
def markedLines (text : String) : List String :=
  ((Text.splitOn '\n' text.toList).map String.ofList).filter (errorMark.toList <+: ·.toList)

theorem markedLines_append {line : String} (h : OneLine line) (rest : String) :
    markedLines (line ++ "\n" ++ rest) =
      [line].filter (errorMark.toList <+: ·.toList) ++ markedLines rest := by
  have hlist : (line ++ "\n" ++ rest).toList = line.toList ++ '\n' :: rest.toList := by simp
  rw [markedLines, hlist, Text.splitOn_append_sep, Text.splitOn_of_notMem h, List.map_append,
    List.filter_append, List.map_singleton, String.ofList_toList]
  rfl

/-- The lines with which a call complains. -/
def Outcome.errorLines (wording : DocumentWording) (subscriber : Subscriber) (o : Outcome) :
    List String :=
  markedLines (o.complaint wording subscriber)

namespace Event

def Value.IsPlain : Value → Prop
  | words text => OneLine text
  | number _ | quoted _ => True

/-- No words of an event hold a line end. What is quoted may do so. -/
structure IsPlain (wording : DocumentWording) (event : Event) : Prop where
  message : OneLine event.message
  fields : ∀ field ∈ event.fields wording, field.2.IsPlain

variable {wording : DocumentWording}

theorem isPlain_warned {d : Diagnostic} (h : OneLine d.warning.message) :
    IsPlain wording (.warned d) where
  message := h
  fields := by
    have hdots : OneLine ".." := by decide
    have hspan : OneLine d.span.text :=
      oneLine_append.mpr ⟨oneLine_append.mpr ⟨oneLine_toString _, hdots⟩, oneLine_toString _⟩
    simp [fields, Value.IsPlain, hspan]

theorem isPlain_completed (run : String) (locations transitions bounds warnings : Nat) :
    IsPlain wording (.completed run locations transitions bounds warnings) where
  message := (by decide : OneLine "composition complete")
  fields := by simp [fields, Value.IsPlain]

theorem isPlain_failed {fault : ComposeFault} (h : OneLine (fault.message wording))
    (run : String) : IsPlain wording (.failed run fault) where
  message := (by decide : OneLine "composition failed")
  fields := by simp [fields, Value.IsPlain, h]

theorem isPlain_catalogLoaded {root : String} (h : OneLine root) (tiles : Nat) :
    IsPlain wording (.catalogLoaded tiles root) where
  message := (by decide : OneLine "catalog loaded")
  fields := by simp [fields, Value.IsPlain, h]

end Event

namespace Subscriber

variable {wording : DocumentWording} {subscriber : Subscriber}

/-- An event without line ends in its words becomes one line, and this is no error line. -/
def WritesLines (wording : DocumentWording) (subscriber : Subscriber) : Prop :=
  ∀ place event, event.IsPlain wording → ∃ line, subscriber place event = line ++ "\n" ∧
    OneLine line ∧ ¬ errorMark.toList <+: line.toList

theorem oneLine_value {value : Event.Value} (h : value.IsPlain) : OneLine value.text := by
  cases value with
  | number value => exact oneLine_toString value
  | quoted text => exact oneLine_quoted text
  | words text => exact h

/-- The usual form of events has this property if the times have it and begin with no letter. -/
theorem writesLines_usual {time : Nat → String} (hline : ∀ place, OneLine (time place))
    (hletter : ∀ place, (time place).toList.head? ≠ some 't') :
    (usual wording time).WritesLines wording := by
  intro place event hplain
  refine ⟨_, rfl, ?_, ?_⟩
  · have hblank : OneLine " " := by decide
    have hlabel : OneLine event.severity.label := by cases event.severity <;> decide
    have hnames : ∀ field ∈ event.fields wording, OneLine field.1 := by
      cases event <;> simp [Event.fields] <;> decide
    have hfields : OneLine (String.join ((event.fields wording).map fun field =>
        " " ++ field.1 ++ "=" ++ field.2.text)) := by
      refine oneLine_join fun text htext => ?_
      obtain ⟨field, hfield, rfl⟩ := List.mem_map.mp htext
      have hequals : OneLine "=" := by decide
      simp only [oneLine_append]
      exact ⟨⟨⟨hblank, hnames field hfield⟩, hequals⟩, oneLine_value (hplain.fields field hfield)⟩
    simp only [oneLine_append]
    exact ⟨⟨⟨⟨⟨hline place, hblank⟩, hlabel⟩, hblank⟩, hplain.message⟩, hfields⟩
  · rintro ⟨rest, hrest⟩
    have hhead := congrArg List.head? hrest
    have hfirst := hletter place
    cases htime : (time place).toList with
    | nil => simp [errorMark, htime] at hhead
    | cons c cs =>
      rw [htime] at hfirst
      simp only [errorMark, String.toList_append, htime, List.cons_append] at hhead
      exact hfirst hhead.symm

theorem markedLines_log (h : subscriber.WritesLines wording) {log : List Event}
    (hlog : ∀ event ∈ log, event.IsPlain wording) (rest : String) :
    markedLines (String.join (log.mapIdx subscriber) ++ rest) = markedLines rest := by
  induction log generalizing subscriber with
  | nil => simp
  | cons event log ih =>
    obtain ⟨line, hwritten, hline, hmark⟩ := h 0 event (hlog event List.mem_cons_self)
    have hlater : WritesLines wording fun place => subscriber (place + 1) :=
      fun place => h (place + 1)
    rw [List.mapIdx_cons, String.join_cons, hwritten, String.append_assoc, markedLines_append hline,
      ih hlater fun event hevent => hlog event (List.mem_cons_of_mem _ hevent)]
    simp [hmark]

end Subscriber

end Tilework.CommandLine
