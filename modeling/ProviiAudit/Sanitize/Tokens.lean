import ProviiAudit.Lib.Tokens
import ProviiAudit.Sanitize.Cuts

/-! The IPv4 pass against its reference, which splits the text into tokens first. -/
namespace ProviiAudit

open Utf8 (Text byteOf)
open Span (Stops)
open Scan (scan)

variable {g y : Text} {q : Bytes} {n : Nat}

/-- A byte of `[0-9.]` is a character of its own. -/
def isRunChar (c : Char) : Bool := isIpv4Adjacent (byteOf c)

/-- Four octets with dots between them. -/
def isDottedQuad (run : Text) : Bool :=
  match run.splitOn '.' with
  | [o₁, o₂, o₃, o₄] => [o₁, o₂, o₃, o₄].all fun o => decide (IsOctet (codes o))
  | _ => false

/-- The reference: every run of digits and dots is an address or stays as it is. -/
def stripIpv4Tokens (input : Text) : Text :=
  (Scan.tokens isRunChar input).flatMap fun token =>
    if isDottedQuad token then redactedIp else token

theorem dot_notMem {o : Text} (ho : IsOctet (codes o)) : '.' ∉ o :=
  fun hdot => absurd (ho.digits _ (List.mem_map_of_mem hdot)) (by decide)

theorem isDottedQuad_iff : isDottedQuad g = true ↔ IsQuad (codes g) := by
  constructor
  · intro h
    have hjoin : ['.'].intercalate (g.splitOn '.') = g := List.intercalate_splitOn '.'
    unfold isDottedQuad at h
    split at h
    · rename_i o₁ o₂ o₃ o₄ hsplit
      simp only [List.all_cons, List.all_nil, Bool.and_true, Bool.and_eq_true,
        decide_eq_true_eq] at h
      obtain ⟨h₁, h₂, h₃, h₄⟩ := h
      rw [hsplit] at hjoin
      rw [← hjoin]
      exact ⟨_, _, _, _, h₁, h₂, h₃, h₄, by simp [List.intercalate]⟩
    · simp at h
  · intro h
    obtain ⟨o₁, o₂, o₃, o₄, h₁, h₂, h₃, h₄, rfl⟩ := h.text
    have hsplit : (o₁ ++ '.' :: (o₂ ++ '.' :: (o₃ ++ '.' :: o₄))).splitOn '.' =
        [o₁, o₂, o₃, o₄] := by
      rw [List.splitOn_append_cons_self_of_not_mem (dot_notMem h₁),
        List.splitOn_append_cons_self_of_not_mem (dot_notMem h₂),
        List.splitOn_append_cons_self_of_not_mem (dot_notMem h₃),
        List.splitOn_eq_singleton (dot_notMem h₄)]
    rw [isDottedQuad, hsplit]
    simp [h₁, h₂, h₃, h₄]

/-- On a run of digits and dots a match is all of it. -/
theorem ipv4_whole (hg : ∀ c ∈ g, isRunChar c = true) (h : ipv4Matcher.len none g = some n) :
    n = g.length := by
  have hafter := (Recogniser.matcher_len_iff.mp h).2.2
  by_contra hne
  have hlt : n < g.length := Nat.lt_of_le_of_ne (ipv4Matcher.le h) hne
  rw [codes, List.getElem?_map, List.getElem?_eq_getElem hlt, Option.map_some,
    Option.any_some] at hafter
  have hrun : isIpv4Adjacent (byteOf g[n]) = true := hg _ (List.getElem_mem hlt)
  exact absurd (hrun.symm.trans hafter) (by decide)

theorem tokenwise_ipv4 : Scan.Tokenwise ipv4Matcher isRunChar where
  separates := ipv4Recogniser.separates
  behind := fun y hc => ipv4Recogniser.len_behind hc y
  whole := ipv4_whole

theorem ipv4_token : ipv4Matcher.len none g = some g.length ↔ isDottedQuad g = true := by
  rw [isDottedQuad_iff]
  constructor
  · intro h
    rw [← List.append_nil g] at h
    exact ipv4_quad (y := []) (by simpa using h)
  · intro h
    refine Recogniser.matcher_len_iff.mpr ⟨rfl, ?_, ?_⟩
    · have hlen : quadLen 4 (codes g ++ []) = some (codes g).length :=
        quadLen_of_isQuad h Span.stops_nil
      rw [List.append_nil, List.length_map] at hlen
      exact hlen
    · rw [List.getElem?_eq_none (by simp)]
      rfl

/-- The scanner retries at every byte and looks one byte around; it finds the tokens. -/
theorem stripIpv4_eq_tokens (input : Text) : stripIpv4 input = stripIpv4Tokens input := by
  have hscan := Scan.scan_eq_tokens (R := redactedIp) (s := input) tokenwise_ipv4
  rw [stripIpv4_eq_scan, stripIpv4Tokens]
  simpa only [ipv4_token] using hscan

example : stripIpv4Tokens "1.2.3.4 v1.2.3.4.5".toList = "[REDACTED_IP] v1.2.3.4.5".toList := by
  decide

end ProviiAudit
