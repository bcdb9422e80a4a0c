import GzLang.Proofs.Rewriting
import GzLang.Proofs.Machine

/-!
# What was reported

Reports stand in the error text of a machine, one on a line, with the number of the line of the
program in front. `messages` reads them back without the numbers. If no message has a line feed, it
gives exactly the messages that were reported (`Reports.messages_eq`).
-/

namespace GzLang

open Text

def messageOf (report : List Char) : List Char :=
  match cutFirst [':', ' '] report with
  | some (_, message) => message
  | none => report

def messages (err : String) : List String :=
  (lines err.toList).dropLast.map fun l => String.ofList (messageOf l)

def reportText (number : Nat) (message : String) : String :=
  "Error at line " ++ toString number ++ ": " ++ message ++ "\n"

/-- A text consists of reports with the given messages, none of which has a line feed. -/
inductive Reports : String → List String → Prop
  | nil : Reports "" []
  | snoc {err : String} {ms : List String} {message : String} (h : Reports err ms) (number : Nat)
    (hmessage : '\n' ∉ message.toList) :
    Reports (err ++ reportText number message) (ms ++ [message])

theorem isDigit_of_mem_toString {n : Nat} {c : Char} (h : c ∈ (toString n).toList) : c.isDigit := by
  have : (toString n).toList = Nat.toDigits 10 n := by
    simp [toString, Nat.repr]
  rw [this] at h
  exact Nat.isDigit_of_mem_toDigits (by omega) (by omega) h

theorem not_mem_number {c : Char} (hc : c.isDigit = false) (hc' : c ∉ "Error at line ".toList)
    (n : Nat) : c ∉ ("Error at line " ++ toString n).toList := by
  rw [String.toList_append, List.mem_append]
  rintro (h | h)
  · exact hc' h
  · rw [isDigit_of_mem_toString h] at hc
    cases hc

theorem Reports.lines_append {err : String} {ms : List String} (h : Reports err ms) :
    ∃ ls, ls.map (fun l => String.ofList (messageOf l)) = ms ∧ ∀ s, lines (err.toList ++ s) = ls ++ lines s := by
  induction h with
  | nil => exact ⟨[], rfl, fun s => by simp⟩
  | @snoc err ms message _ number hmessage ih =>
    obtain ⟨ls, rfl, hls⟩ := ih
    refine ⟨ls ++ [("Error at line " ++ toString number).toList ++ (':' :: [' '] ++ message.toList)], ?_, fun s => ?_⟩
    · have hcut := cutFirst_append (not_mem_number (c := ':') rfl (by decide) number) [' ']
        message.toList
      rw [List.map_append, List.map_singleton, messageOf, hcut, String.ofList_toList]
    · have hbreak : '\n' ∉ ("Error at line " ++ toString number).toList ++ (':' :: [' '] ++ message.toList) := by
        rw [List.mem_append]
        rintro (hmem | hmem)
        · exact not_mem_number rfl (by decide) number hmem
        · simp [hmessage] at hmem
      have := splitAll_append hbreak s
      rw [String.toList_append, List.append_assoc, hls, List.append_assoc]
      congr 1
      simpa [lines, reportText] using this

/-- The reports are read back as they were written. -/
theorem Reports.messages_eq {err : String} {ms : List String} (h : Reports err ms) : messages err = ms := by
  obtain ⟨ls, rfl, hls⟩ := h.lines_append
  have := hls []
  rw [List.append_nil, lines_nil] at this
  rw [messages, this, List.dropLast_concat]

end GzLang
