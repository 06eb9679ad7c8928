import Mathlib
import Statsdcc.UdpServer

/-!
# The lines of a datagram

The lines that `UDPServer::listen` consumes are compared with the text between the
newlines of the datagram. The two differ when the datagram has a NUL, with which the
string that is made of the buffer ends.

## Main definitions

- `UdpServer.segments` — the text between newlines
- `UdpServer.Packet` — a datagram of several lines

## Main results

- `UdpServer.getlines_eq_segments` — a `std::getline` loop reads the segments
- `UdpServer.listen_lines_iff` — when a datagram yields every one of its lines
-/

open Bytes

namespace Statsdcc

namespace UdpServer

/-- A list without a last empty string. -/
def withoutLastEmpty (parts : List Bytes) : List Bytes :=
  if parts.getLast? = some [] then parts.dropLast else parts

/-- The text between newlines, without a last segment that is empty. -/
def segments (s : Bytes) : List Bytes := withoutLastEmpty (s.splitOn newline)

/-- A datagram that a client makes of lines, with or without a newline behind the last. -/
structure Packet where
  lines : List Bytes
  text : Bytes
  lines_ok : ∀ line ∈ lines, line ≠ [] ∧ newline ∉ line
  packed : text = [newline].intercalate lines ∨
    lines ≠ [] ∧ text = [newline].intercalate lines ++ [newline]
  fits : text.length ≤ maxMsgSize

theorem withoutLastEmpty_cons (part : Bytes) {parts : List Bytes} (h : parts ≠ []) :
    withoutLastEmpty (part :: parts) = part :: withoutLastEmpty parts := by
  rw [withoutLastEmpty, withoutLastEmpty, List.getLast?_cons_of_ne_nil h,
    List.dropLast_cons_of_ne_nil h]
  split_ifs <;> rfl

/-- The segments behind the text that was read so far. -/
theorem getlinesFrom_eq_segments (cur s : Bytes) :
    getlinesFrom cur s = withoutLastEmpty (s.splitOnPPrepend (· == newline) cur) := by
  induction s generalizing cur with
  | nil => cases cur <;> simp [getlinesFrom, withoutLastEmpty]
  | cons c s ih =>
    rw [getlinesFrom, List.splitOnPPrepend_cons_eq_if]
    by_cases hc : c = newline
    · rw [if_pos hc, if_pos (beq_iff_eq.mpr hc), withoutLastEmpty_cons _ (List.splitOnP_ne_nil _ _),
        ih [], List.splitOnPPrepend_nil_right]
    · rw [if_neg hc, if_neg (by simpa using hc), ih]

theorem getlines_eq_segments (s : Bytes) : getlines s = segments s :=
  getlinesFrom_eq_segments [] s

/-- The segments of a packet are its lines. -/
theorem segments_text (packet : Packet) : segments packet.text = packet.lines := by
  have hnewline : ∀ line ∈ packet.lines, newline ∉ line := fun line hline =>
    (packet.lines_ok line hline).2
  rcases packet.packed with htext | ⟨hne, htext⟩
  · rw [segments, htext]
    by_cases hnil : packet.lines = []
    · rw [hnil]
      rfl
    · rw [List.splitOn_intercalate newline hnewline hnil, withoutLastEmpty, if_neg]
      exact fun hlast => (packet.lines_ok [] (List.mem_of_getLast? hlast)).1 rfl
  · have hlast : [newline].intercalate packet.lines ++ [newline] =
        [newline].intercalate (packet.lines ++ [[]]) := by
      generalize packet.lines = lines at hne
      induction lines with
      | nil => exact absurd rfl hne
      | cons line lines ih =>
        by_cases hnil : lines = []
        · rw [hnil]
          simp
        · rw [List.intercalate_cons_of_ne_nil hnil, List.cons_append,
            List.intercalate_cons_of_ne_nil (by simp), List.append_assoc, ih hnil]
    have hall : ∀ line ∈ packet.lines ++ [[]], newline ∉ line := by
      intro line hline
      rcases List.mem_append.mp hline with hline | hline
      · exact hnewline line hline
      · rw [List.mem_singleton.mp hline]
        exact List.not_mem_nil
    rw [segments, htext, hlast, List.splitOn_intercalate newline hall (by simp), withoutLastEmpty]
    simp

/-- A character other than the newline is in a line when it is in the text. -/
theorem exists_mem_getlinesFrom {c : Byte} (hc : c ≠ newline) (cur s : Bytes) :
    (∃ line ∈ getlinesFrom cur s, c ∈ line) ↔ c ∈ cur ∨ c ∈ s := by
  induction s generalizing cur with
  | nil => cases cur <;> simp [getlinesFrom, or_comm]
  | cons b s ih =>
    rw [getlinesFrom]
    by_cases hb : b = newline
    · rw [if_pos hb, List.exists_mem_cons_iff, ih []]
      simp [hb, hc]
    · rw [if_neg hb, ih, List.mem_cons, List.mem_cons, or_assoc, or_left_comm]

/-- A NUL is never consumed. -/
theorem nul_notMem_of_mem_listen {datagram line : Bytes} (h : line ∈ listen datagram) :
    nul ∉ line := by
  intro hnul
  have hmem := (exists_mem_getlinesFrom (by decide) [] _).mp ⟨line, h, hnul⟩
  rcases hmem with hmem | hmem
  · cases hmem
  · exact not_mem_takeWhile_ne nul _ hmem

/-- A line that is read has no newline and fits into what was read. -/
theorem line_of_mem_getlinesFrom {cur s line : Bytes} (hcur : newline ∉ cur)
    (h : line ∈ getlinesFrom cur s) : newline ∉ line ∧ line.length ≤ cur.length + s.length := by
  induction s generalizing cur with
  | nil =>
    cases cur with
    | nil => exact absurd h List.not_mem_nil
    | cons c cur =>
      rw [getlinesFrom, if_neg (List.cons_ne_nil c cur), List.mem_singleton] at h
      rw [h]
      exact ⟨fun hmem => hcur (List.mem_reverse.mp hmem), by simp⟩
  | cons b s ih =>
    rw [getlinesFrom] at h
    rw [List.length_cons]
    by_cases hb : b = newline
    · rw [if_pos hb] at h
      rcases List.mem_cons.mp h with rfl | h
      · exact ⟨fun hmem => hcur (List.mem_reverse.mp hmem), by rw [List.length_reverse]; omega⟩
      · obtain ⟨hnot, hlength⟩ := ih List.not_mem_nil h
        exact ⟨hnot, hlength.trans (by rw [List.length_nil]; omega)⟩
    · rw [if_neg hb] at h
      have hcons : newline ∉ b :: cur := by
        rw [List.mem_cons, not_or]
        exact ⟨Ne.symm hb, hcur⟩
      obtain ⟨hnot, hlength⟩ := ih hcons h
      exact ⟨hnot, hlength.trans (by rw [List.length_cons]; omega)⟩

/-- What is consumed fits into a datagram and is read from it unchanged. -/
theorem clean_of_mem_listen {datagram line : Bytes} (h : line ∈ listen datagram) :
    nul ∉ line ∧ newline ∉ line ∧ line.length ≤ maxMsgSize := by
  obtain ⟨hnot, hlength⟩ := line_of_mem_getlinesFrom List.not_mem_nil h
  refine ⟨nul_notMem_of_mem_listen h, hnot, hlength.trans ?_⟩
  rw [List.length_nil, Nat.zero_add]
  exact (List.takeWhile_sublist _).length_le.trans (List.length_take_le _ _)

/-- Without a NUL the segments are consumed. -/
theorem listen_eq_segments {datagram : Bytes} (hfits : datagram.length ≤ maxMsgSize)
    (hnul : nul ∉ datagram) : listen datagram = segments datagram := by
  rw [listen, List.take_of_length_le hfits, cStr_eq_self hnul, getlines_eq_segments]

/-- The text of a packet has a NUL when one of its lines has one. -/
theorem nul_mem_text_iff (packet : Packet) :
    nul ∈ packet.text ↔ ∃ line ∈ packet.lines, nul ∈ line := by
  rw [← segments_text, ← getlines_eq_segments, getlines, exists_mem_getlinesFrom (by decide)]
  simp

/-- **A datagram yields every one of its lines** just when it has no NUL: so does every
datagram, and any datagrams that the same lines are packed into. -/
theorem listen_lines_iff (datagram : Bytes) (packets : List Packet) :
    (datagram.length ≤ maxMsgSize →
      (listen datagram = segments datagram ↔ nul ∉ datagram)) ∧
    ((packets.flatMap fun packet => listen packet.text) = packets.flatMap Packet.lines ↔
      ∀ line ∈ packets.flatMap Packet.lines, nul ∉ line) := by
  constructor
  · intro hfits
    refine ⟨fun h hnul => ?_, listen_eq_segments hfits⟩
    obtain ⟨line, hline, hmem⟩ :=
      (exists_mem_getlinesFrom (by decide) [] datagram).mpr (.inr hnul)
    change line ∈ getlines datagram at hline
    rw [getlines_eq_segments, ← h] at hline
    exact nul_notMem_of_mem_listen hline hmem
  · refine ⟨fun h line hline => ?_, fun h => List.flatMap_congr fun packet hpacket => ?_⟩
    · rw [← h] at hline
      obtain ⟨packet, -, hlisten⟩ := List.mem_flatMap.mp hline
      exact nul_notMem_of_mem_listen hlisten
    · rw [← segments_text]
      refine listen_eq_segments packet.fits fun hnul => ?_
      obtain ⟨line, hline, hmem⟩ := (nul_mem_text_iff packet).mp hnul
      exact h line (List.mem_flatMap.mpr ⟨packet, hpacket, hline⟩) hmem

theorem listen_lines_iff_batch :
    listen (ascii "a:1|c\nb:2|c") = segments (ascii "a:1|c\nb:2|c") ↔
      nul ∉ ascii "a:1|c\nb:2|c" :=
  (listen_lines_iff (ascii "a:1|c\nb:2|c") []).1 (by decide)

/-- A NUL behind the first line takes the second one with it. -/
theorem not_listen_lines_nul :
    (ascii "a:1|c\x00\nb:1|c").length ≤ maxMsgSize ∧
      segments (ascii "a:1|c\x00\nb:1|c") = [ascii "a:1|c\x00", ascii "b:1|c"] ∧
      listen (ascii "a:1|c\x00\nb:1|c") = [ascii "a:1|c"] ∧
      listen (ascii "a:1|c\x00\nb:1|c") ≠ segments (ascii "a:1|c\x00\nb:1|c") := by
  decide

end UdpServer

end Statsdcc
