-- SUMMARY: The token of a server: who gets past it, and what those who do not can see and do.
import Omoplata.Cli.Serve

/-!
# The token

A server with a token looks at a request only if the request bears it. What a request bears has
been trimmed on the way, so not every token that a server can be started with can be borne.
-/

open Chunks

namespace Omoplata

/-- A token that a request can bear: one line of text, with no white space around it. -/
structure Bearable (t : Str) : Prop where
  nonempty : t ≠ []
  trimmed : Trimmed t
  line : '\n' ∉ t

theorem newline_notMem_textLines {text line : Str} (h : line ∈ textLines text) : '\n' ∉ line := by
  have hpieces := (pieces_splitInclusive text).1
  obtain ⟨piece, hpiece, rfl⟩ := List.mem_map.mp h
  clear h
  generalize splitInclusive text = pieces at hpieces hpiece
  induction hpieces with
  | nil => cases hpiece
  | @last l hl =>
      obtain rfl := List.mem_singleton.mp hpiece
      have hend : piece.getLast? ≠ some '\n' := fun heq => hl (List.mem_of_getLast? heq)
      rwa [if_neg hend]
  | @cons l pieces hl _ ih =>
      rcases List.mem_cons.mp hpiece with rfl | hpiece
      · rw [if_pos List.getLast?_concat, List.dropLast_concat]
        unfold stripReturn
        split
        · exact fun hmem => hl (List.mem_of_mem_dropLast hmem)
        · exact hl
      · exact ih hpiece

/-- A token that is read off a line can be borne. -/
theorem bearable_of_readHeader {s : Nat × Option Str} {line t : Str} (hline : '\n' ∉ line)
    (hs : ∀ t, s.2 = some t → Bearable t) (h : (readHeader s line).2 = some t) : Bearable t := by
  unfold readHeader at h
  split at h
  · exact hs t h
  · rename_i k v hsplit
    obtain ⟨hparts, -⟩ := splitOnce_eq_some hsplit
    simp only at h
    split at h
    · exact hs t h
    · split at h
      · obtain ⟨rest, hstrip, rfl⟩ := Option.map_eq_some_iff.mp h
        unfold stripPrefix at hstrip
        split at hstrip
        · rename_i hfront
          obtain ⟨tail, htail⟩ := List.isPrefixOf_iff_prefix.mp hfront
          rw [← htail, List.drop_left, Option.some.injEq] at hstrip
          subst hstrip
          obtain ⟨x, y, hv, -, -, htrimmed⟩ := exists_trim v
          obtain ⟨x', y', htail', hx', hy', hcore⟩ := exists_trim tail
          refine ⟨fun hnil => ?_, hcore, fun hmem => ?_⟩
          · -- The value does not end in the space behind the word.
            have hblank : Blank (' ' :: tail) := by
              rw [hnil, List.append_nil] at htail'
              rw [htail']
              exact List.forall_mem_cons.mpr ⟨by decide, List.forall_mem_append.mpr ⟨hx', hy'⟩⟩
            have hc := List.getLast?_eq_some_getLast (List.cons_ne_nil ' ' tail)
            have hend : (trim v).getLast? = some ((' ' :: tail).getLast (List.cons_ne_nil ' ' tail)) := by
              have hword : "Bearer ".toList ++ tail = "Bearer".toList ++ ' ' :: tail := rfl
              rw [← htail, hword, List.getLast?_append, hc]
              rfl
            have hwhite := hblank _ (List.mem_of_getLast? hc)
            rw [htrimmed.last _ hend] at hwhite
            cases hwhite
          · refine hline ?_
            rw [hparts, hv, ← htail, htail']
            simp [hmem]
        · cases hstrip
      · exact hs t h

theorem bearable_of_readRequest {conn : Connection} {request : HttpRequest} {t : Str}
    (h : readRequest conn = .ok request) (hbearer : request.bearer = some t) : Bearable t := by
  obtain ⟨⟨buf, conn'⟩, -, h⟩ := Codec.bind_eq_ok.mp h
  simp only at h
  split at h
  · cases h
  · split at h
    · cases h
    · rename_i head _
      obtain ⟨⟨body, conn''⟩, -, h⟩ := Codec.bind_eq_ok.mp h
      cases h
      have hfold : ∀ (lines : List Line) (s : Nat × Option Str), (∀ line ∈ lines, '\n' ∉ line) →
          (∀ t, s.2 = some t → Bearable t) → ∀ t, (lines.foldl readHeader s).2 = some t → Bearable t := by
        intro lines
        induction lines with
        | nil => exact fun _ _ hs => hs
        | cons line lines ih =>
            intro s hlines hs
            obtain ⟨hline, hlines⟩ := List.forall_mem_cons.mp hlines
            exact ih _ hlines fun t ht => bearable_of_readHeader hline hs ht
      refine hfold (textLines head).tail (0, none) ?_ (fun t ht => by cases ht) t hbearer
      exact fun line hline => newline_notMem_textLines (List.mem_of_mem_tail hline)

section

variable (sha256 : List UInt8 → ObjectId) (display : Display) (json : WireJson) (land : LandPushed)

/-- Whether a connection brings a request that bears a token. -/
def bears (t : Str) (conn : Connection) : Bool :=
  match readRequest conn with
  | .error _ => false
  | .ok request => request.bearer == some t

/-- What is answered to a connection that does not. -/
def refusal (conn : Connection) : List UInt8 :=
  match readRequest conn with
  | .error e => writeResponse 500 [] e.text
  | .ok _ => writeResponse 401 [] "Unauthorized".toList

variable {t : Str} {conn : Connection}

theorem handle_of_not_bears (h : bears t conn = false) (site : Site) :
    handle sha256 display json land (some t) site conn = (refusal conn, site) := by
  unfold bears at h
  unfold handle refusal
  cases hread : readRequest conn with
  | error e => rfl
  | ok request =>
      rw [hread] at h
      have hgate : (some t).isSome = true ∧ request.bearer ≠ some t := ⟨rfl, by simpa using h⟩
      simp only [if_pos hgate]

theorem serve_cons (token : Option Str) (site : Site) (conn : Connection) (conns : List Connection) :
    serve sha256 display json land token site (conn :: conns) =
      ((handle sha256 display json land token site conn).1 ::
          (serve sha256 display json land token (handle sha256 display json land token site conn).2 conns).1,
        (serve sha256 display json land token (handle sha256 display json land token site conn).2 conns).2) := rfl

/-- In every run of a server with a token, the connections that do not bear it are refused, in words
    that do not depend on the repository, and the others go as if there had been no others. -/
theorem serve_gated (t : Str) (site : Site) (conns : List Connection) :
    let r := serve sha256 display json land (some t) site conns
    r.1.length = conns.length ∧
      (∀ conn answer, (conn, answer) ∈ conns.zip r.1 → bears t conn = false → answer = refusal conn) ∧
      serve sha256 display json land (some t) site (conns.filter (bears t)) =
        (((conns.zip r.1).filter fun exchange => bears t exchange.1).map Prod.snd, r.2) := by
  induction conns generalizing site with
  | nil => exact ⟨rfl, fun conn answer h => absurd h List.not_mem_nil, rfl⟩
  | cons conn conns ih =>
      cases hbears : bears t conn with
      | true =>
          obtain ⟨hlength, hrefused, hothers⟩ := ih (handle sha256 display json land (some t) site conn).2
          refine ⟨congrArg (· + 1) hlength, fun conn' answer hmem hnot => ?_, ?_⟩
          · cases List.mem_cons.mp hmem with
            | inl heq =>
                cases heq
                rw [hbears] at hnot
                cases hnot
            | inr hmem => exact hrefused conn' answer hmem hnot
          · rw [List.filter_cons_of_pos hbears, serve_cons, hothers, serve_cons, List.zip_cons_cons,
              List.filter_cons_of_pos (by simp [hbears]), List.map_cons]
      | false =>
          have hhandle := handle_of_not_bears sha256 display json land hbears site
          obtain ⟨hlength, hrefused, hothers⟩ := ih site
          rw [serve_cons, hhandle]
          refine ⟨congrArg (· + 1) hlength, fun conn' answer hmem hnot => ?_, ?_⟩
          · cases List.mem_cons.mp hmem with
            | inl heq =>
                cases heq
                rfl
            | inr hmem => exact hrefused conn' answer hmem hnot
          · rw [List.filter_cons_of_neg (by simp [hbears]), hothers, List.zip_cons_cons,
              List.filter_cons_of_neg (by simp [hbears])]

theorem bearable_of_bears (h : bears t conn = true) : Bearable t := by
  unfold bears at h
  cases hread : readRequest conn with
  | error e =>
      rw [hread] at h
      cases h
  | ok request =>
      rw [hread] at h
      exact bearable_of_readRequest hread (beq_iff_eq.mp h)

theorem heardToken_of_bearable (h : Bearable t) : heardToken t = some t := by
  have htrim : trim t = t := by
    have hall := trim_blank_append (x := []) (y := []) (List.forall_mem_nil _) (List.forall_mem_nil _) h.trimmed
    rwa [List.nil_append, List.append_nil] at hall
  unfold heardToken
  rw [htrim, if_neg h.nonempty]

/-- A server refuses every request in every run where its token is empty, has white space around it
    or is more than a line, and in no other case. -/
theorem serve_locked_iff (t : Str) :
    (∀ site conns, serve sha256 display json land (some t) site conns = (conns.map refusal, site)) ↔ ¬ Bearable t := by
  constructor
  · intro hlocked ht
    have hsent : requestBytes ['h'] "GET".toList "/refs".toList [] (some t) ≠ [] := List.cons_ne_nil _ _
    let conn : Connection := .piece (requestBytes ['h'] "GET".toList "/refs".toList [] (some t)) .closed
    have hdelivers : Delivers (requestBytes ['h'] "GET".toList "/refs".toList [] (some t)) conn .closed := by
      have hpiece : Delivers (requestBytes ['h'] "GET".toList "/refs".toList [] (some t) ++ []) conn .closed :=
        .piece hsent .done
      rwa [List.append_nil] at hpiece
    have hsayable : Sayable ['h'] (some t) := ⟨by decide, fun t' ht' => Option.some.inj ht' ▸ ht.line⟩
    have hadmits : Admits (some t) (some t) := .inr (heardToken_of_bearable ht)
    have hread : readRequest conn = .ok ⟨"GET".toList, "/refs".toList, (some t).bind heardToken, []⟩ :=
      readRequest_sent hsayable.1 (.of_all (by decide)) (.of_all (by decide)) hsayable.2 (by decide) hdelivers
    have hhandle : handle sha256 display json land (some t) ⟨.init, .new⟩ conn =
        (writeResponse 200 (json.refsToVec (serveRefs ⟨.init, .new⟩)) "OK".toList, ⟨.init, .new⟩) := by
      rw [handle_of_admits hadmits hsayable (.of_all (by decide)) (.of_all (by decide)) (by decide) hdelivers]
      unfold route
      rw [if_pos ⟨rfl, rfl⟩]
    have hanswer := congrArg Prod.fst (hlocked ⟨.init, .new⟩ [conn])
    rw [serve_cons, hhandle] at hanswer
    have hfirst := (List.cons.inj hanswer).1
    have hrefusal : refusal conn = writeResponse 401 [] "Unauthorized".toList := by
      unfold refusal
      rw [hread]
    -- The one is an answer, and the other one a refusal.
    have hok : parseResponse (refusal conn) = .ok ⟨200, json.refsToVec (serveRefs ⟨.init, .new⟩)⟩ := by
      rw [← hfirst]
      exact parseResponse_writeResponse (by decide) (by decide) _
    have hdenied : parseResponse (refusal conn) = .ok ⟨401, []⟩ := by
      rw [hrefusal]
      exact parseResponse_writeResponse (by decide) (by decide) _
    rw [hok] at hdenied
    cases hdenied
  · intro ht site conns
    induction conns with
    | nil => rfl
    | cons conn conns ih =>
        have hnot : bears t conn = false := Bool.eq_false_iff.mpr fun hbears => ht (bearable_of_bears hbears)
        rw [serve_cons, handle_of_not_bears sha256 display json land hnot, ih, List.map_cons]

end

end Omoplata
