import Koala.Lib.Codec
import Koala.Lib.NestedMap

/-!
# Maps of maps as JSON

A map of maps is sent as a JSON object of objects.  A `Doc` is what such a text says: the members of the outer
object, each with the members of its inner object, in the order of the text.  A writer lists the entries of the map
in an order of its own (`Doc.Lists`); a reader takes the members one by one into a fresh map, so of two members with
one key the later one stays.

The text itself is left open.  `Text` says what a JSON package has to do: what it writes reads back as the same
members, with the changes `f` that its keys suffer on the way, also with a line break behind it, and a text that was
cut off does not read at all.  Any self-delimiting codec of documents gives one (`Text.ofCodec`).
-/

namespace Koala
namespace Lib
namespace Json

variable {T K P : Type}

/-- An object of objects, with the members in the order of the text. -/
abbrev Doc (T K P : Type) : Type := List (T × List (K × P))

namespace Doc

variable (d : Doc T K P)

/-- The inner members with the keys of their objects. -/
def members : List (T × K × P) := d.flatMap fun e => e.2.map fun p => (e.1, p.1, p.2)

/-- A change of the inner keys. -/
def mapKeys (f : K → K) (d : Doc T K P) : Doc T K P := d.map fun e => (e.1, e.2.map fun p => (f p.1, p.2))

variable [DecidableEq T] [DecidableEq K]

/-- The members of an inner object as a map. -/
def innerMap (ms : List (K × P)) : GoMap K P := ms.foldl (fun m p => m.set p.1 p.2) ∅

/-- The document as a map of maps. -/
def toMap : NestedMap T K P := d.foldl (fun m e => GoMap.set m e.1 (innerMap e.2)) ∅

/-- The document lists the entries of the map. -/
def Lists (m : NestedMap T K P) : Prop :=
  (d.map Prod.fst).Perm (AList.keys m) ∧ ∀ e ∈ d, e.2.Perm (((GoMap.get m e.1).getD ∅).pairs)

instance [DecidableEq P] (d : Doc T K P) (m : NestedMap T K P) : Decidable (d.Lists m) :=
  inferInstanceAs (Decidable (_ ∧ _))

/-- What a document says about the entries of a map without empty inner maps. -/
structure Describes (d : Doc T K P) (content : T → K → Option P) : Prop where
  times_nodup : (d.map Prod.fst).Nodup
  keys_nodup : ∀ e ∈ d, (e.2.map Prod.fst).Nodup
  ne_nil : ∀ e ∈ d, e.2 ≠ []
  mem_iff : ∀ t k p, (t, k, p) ∈ d.members ↔ content t k = some p

variable {d : Doc T K P} {t : T} {k : K} {p : P}

omit [DecidableEq T] [DecidableEq K] in
theorem mem_members : (t, k, p) ∈ d.members ↔ ∃ ms, (t, ms) ∈ d ∧ (k, p) ∈ ms := by
  unfold members
  rw [List.mem_flatMap]
  constructor
  · rintro ⟨⟨t', ms⟩, hmem, hin⟩
    obtain ⟨⟨k', p'⟩, hp, heq⟩ := List.mem_map.mp hin
    obtain ⟨rfl, rfl, rfl⟩ : t' = t ∧ k' = k ∧ p' = p := by simpa using heq
    exact ⟨ms, hmem, hp⟩
  · rintro ⟨ms, hmem, hin⟩
    exact ⟨(t, ms), hmem, List.mem_map.mpr ⟨(k, p), hin, rfl⟩⟩

/-! ## Reading -/

theorem mem_of_get_innerMap {ms : List (K × P)} (h : (innerMap ms).get k = some p) : (k, p) ∈ ms := by
  rcases GoMap.mem_of_get_foldl_set h with hempty | ⟨q, hq, rfl, rfl⟩
  · cases hempty
  · exact hq

theorem mem_of_get_toMap (h : d.toMap.get t k = some p) : (t, k, p) ∈ d.members := by
  obtain ⟨inner, houter, hinner⟩ := Option.bind_eq_some_iff.mp h
  rcases GoMap.mem_of_get_foldl_set houter with hempty | ⟨e, he, rfl, rfl⟩
  · cases hempty
  · exact mem_members.mpr ⟨e.2, he, mem_of_get_innerMap hinner⟩

theorem get_toMap (htimes : (d.map Prod.fst).Nodup) (hkeys : ∀ e ∈ d, (e.2.map Prod.fst).Nodup) (t : T) (k : K)
    (p : P) : d.toMap.get t k = some p ↔ (t, k, p) ∈ d.members := by
  refine ⟨mem_of_get_toMap, fun hin => ?_⟩
  obtain ⟨ms, hmem, hin⟩ := mem_members.mp hin
  have houter : GoMap.get d.toMap t = some (innerMap ms) :=
    GoMap.get_foldl_set Prod.fst (fun e : T × List (K × P) => innerMap e.2) d htimes ∅ (t, ms) hmem
  rw [NestedMap.get, houter, Option.bind_some]
  exact GoMap.get_foldl_set Prod.fst Prod.snd ms (hkeys _ hmem) ∅ (k, p) hin

theorem Describes.get_toMap {content : T → K → Option P} (h : d.Describes content) (t : T) (k : K) :
    d.toMap.get t k = content t k :=
  Option.ext fun p => (Doc.get_toMap h.times_nodup h.keys_nodup t k p).trans (h.mem_iff t k p)

/-! ## Writing -/

variable {m : NestedMap T K P}

omit [DecidableEq K] in
theorem Lists.get_of_mem (h : d.Lists m) {e : T × List (K × P)} (he : e ∈ d) :
    ∃ inner, GoMap.get m e.1 = some inner ∧ e.2.Perm inner.pairs := by
  have hkey : e.1 ∈ AList.keys m := h.1.mem_iff.mp (List.mem_map_of_mem he)
  obtain ⟨inner, hinner⟩ := Option.isSome_iff_exists.mp ((GoMap.mem_keys_iff m e.1).mp hkey)
  have hperm := h.2 e he
  rw [hinner, Option.getD_some] at hperm
  exact ⟨inner, hinner, hperm⟩

theorem Lists.describes (h : d.Lists m) (hne : ∀ t inner, GoMap.get m t = some inner → inner.pairs ≠ []) :
    d.Describes m.get where
  times_nodup := h.1.nodup_iff.mpr (AList.keys_nodup m)
  keys_nodup e he := by
    obtain ⟨inner, -, hperm⟩ := h.get_of_mem he
    rw [(hperm.map Prod.fst).nodup_iff, GoMap.pairs_map_fst]
    exact AList.keys_nodup inner
  ne_nil e he := by
    obtain ⟨inner, hinner, hperm⟩ := h.get_of_mem he
    intro hnil
    rw [hnil] at hperm
    exact hne e.1 inner hinner (List.nil_perm.mp hperm)
  mem_iff t k p := by
    rw [mem_members, NestedMap.get, Option.bind_eq_some_iff]
    constructor
    · rintro ⟨ms, hmem, hin⟩
      obtain ⟨inner, hinner, hperm⟩ := h.get_of_mem hmem
      exact ⟨inner, hinner, (GoMap.mem_pairs inner k p).mp (hperm.mem_iff.mp hin)⟩
    · rintro ⟨inner, hinner, hget⟩
      have hkey : t ∈ d.map Prod.fst := h.1.mem_iff.mpr ((GoMap.mem_keys_iff m t).mpr (by rw [hinner]; rfl))
      obtain ⟨⟨t', ms⟩, hmem, rfl⟩ := List.mem_map.mp hkey
      obtain ⟨inner', hinner', hperm⟩ := h.get_of_mem hmem
      obtain rfl : inner' = inner := Option.some.inj (hinner'.symm.trans hinner)
      exact ⟨ms, hmem, hperm.mem_iff.mpr ((GoMap.mem_pairs inner' k p).mpr hget)⟩

theorem Describes.lists (h : d.Describes m.get) (hne : ∀ t inner, GoMap.get m t = some inner → inner.pairs ≠ []) :
    d.Lists m := by
  have hinner : ∀ e ∈ d, ∃ inner, GoMap.get m e.1 = some inner := by
    intro e he
    obtain ⟨p, hp⟩ := List.exists_mem_of_ne_nil _ (h.ne_nil e he)
    obtain ⟨inner, hget, -⟩ := Option.bind_eq_some_iff.mp
      ((h.mem_iff e.1 p.1 p.2).mp (mem_members.mpr ⟨e.2, he, hp⟩))
    exact ⟨inner, hget⟩
  refine ⟨(List.perm_ext_iff_of_nodup h.times_nodup (AList.keys_nodup m)).mpr fun t => ?_, fun e he => ?_⟩
  · rw [GoMap.mem_keys_iff]
    constructor
    · intro ht
      obtain ⟨e, he, rfl⟩ := List.mem_map.mp ht
      obtain ⟨inner, hget⟩ := hinner e he
      rw [hget]
      rfl
    · intro ht
      obtain ⟨inner, hget⟩ := Option.isSome_iff_exists.mp ht
      obtain ⟨⟨k, p⟩, hp⟩ := List.exists_mem_of_ne_nil _ (hne t inner hget)
      have hcontent : m.get t k = some p := by
        rw [NestedMap.get, hget, Option.bind_some]
        exact (GoMap.mem_pairs inner k p).mp hp
      obtain ⟨ms, hmem, -⟩ := mem_members.mp ((h.mem_iff t k p).mpr hcontent)
      exact List.mem_map.mpr ⟨(t, ms), hmem, rfl⟩
  · obtain ⟨inner, hget⟩ := hinner e he
    rw [hget, Option.getD_some]
    have hkeys : (inner.pairs.map Prod.fst).Nodup := by
      rw [GoMap.pairs_map_fst]
      exact AList.keys_nodup inner
    refine (List.perm_ext_iff_of_nodup ((h.keys_nodup e he).of_map _) (hkeys.of_map _)).mpr ?_
    rintro ⟨k, p⟩
    have hcontent : m.get e.1 k = inner.get k := by rw [NestedMap.get, hget, Option.bind_some]
    rw [GoMap.mem_pairs, ← hcontent, ← h.mem_iff, mem_members]
    constructor
    · exact fun hin => ⟨e.2, he, hin⟩
    · rintro ⟨ms, hmem, hin⟩
      have heq := List.inj_on_of_nodup_map h.times_nodup hmem he rfl
      rwa [← heq]

omit [DecidableEq K] in
theorem exists_lists (m : NestedMap T K P) : ∃ d : Doc T K P, d.Lists m := by
  refine ⟨(GoMap.pairs m).map fun e => (e.1, e.2.pairs), ?_, fun e he => ?_⟩
  · rw [List.map_map, ← GoMap.pairs_map_fst]
    exact List.Perm.refl _
  · obtain ⟨⟨t, inner⟩, hmem, rfl⟩ := List.mem_map.mp he
    rw [(GoMap.mem_pairs m t inner).mp hmem]
    exact List.Perm.refl _

/-! ## Changed keys -/

omit [DecidableEq T] [DecidableEq K] in
theorem mapKeys_eq_self {f : K → K} (h : ∀ t k p, (t, k, p) ∈ d.members → f k = k) :
    d.mapKeys f = d := by
  unfold mapKeys
  refine (List.map_congr_left fun e he => ?_).trans (List.map_id d)
  refine Prod.ext rfl ((List.map_congr_left fun p hp => ?_).trans (List.map_id e.2))
  exact Prod.ext (h e.1 p.1 p.2 (mem_members.mpr ⟨e.2, he, hp⟩)) rfl

theorem exists_of_get_mapKeys {f : K → K} (h : (d.mapKeys f).toMap.get t k = some p) : ∃ k', f k' = k := by
  obtain ⟨ms, hmem, hin⟩ := mem_members.mp (mem_of_get_toMap h)
  obtain ⟨e, -, heq⟩ := List.mem_map.mp hmem
  obtain ⟨rfl, rfl⟩ := Prod.mk.inj heq
  obtain ⟨q, -, hq⟩ := List.mem_map.mp hin
  exact ⟨q.1, (Prod.mk.inj hq).1⟩

end Doc

/-! ## Texts -/

def newline : UInt8 := 10

/-- A JSON package for documents whose keys suffer the change `f` in a text. -/
structure Text (T K P : Type) (f : K → K) where
  print : Doc T K P → Bytes
  /-- `none` is a syntax error. -/
  parse : Bytes → Option (Doc T K P)
  parse_print : ∀ d, parse (print d) = some (d.mapKeys f)
  parse_line : ∀ d, parse (print d ++ [newline]) = some (d.mapKeys f)
  parse_truncated : ∀ d text, text <+: print d → text ≠ print d → parse text = none

/-- Any codec of documents, with the change of the keys made by the reader. -/
def Text.ofCodec [DecidableEq T] [DecidableEq K] [DecidableEq P] (f : K → K) (c : Codec (Doc T K P)) :
    Text T K P f where
  print := c.marshal
  parse text := (c.unmarshal text).bind fun p =>
    if text = c.marshal p.1 ∨ text = c.marshal p.1 ++ [newline] then some (p.1.mapKeys f) else none
  parse_print d := by
    have hread := c.unmarshal_marshal d []
    rw [List.append_nil] at hread
    rw [hread, Option.bind_some, if_pos (.inl rfl)]
  parse_line d := by rw [c.unmarshal_marshal d [newline], Option.bind_some, if_pos (.inr rfl)]
  parse_truncated d text htext hne := by
    obtain ⟨rest, hrest⟩ := htext
    cases hread : c.unmarshal text with
    | none => rfl
    | some p =>
      rw [Option.bind_some, if_neg]
      -- a complete document in front of `rest` would be all of the text
      have hwhole : ∀ suffix, c.marshal p.1 ++ suffix = c.marshal d → suffix = [] := by
        intro suffix heq
        have hfirst := c.unmarshal_marshal p.1 suffix
        have hall := c.unmarshal_marshal d []
        rw [List.append_nil, ← heq, hfirst, Option.some.injEq, Prod.mk.injEq, List.length_append] at hall
        exact List.eq_nil_of_length_eq_zero (by omega)
      rintro (heq | heq)
      · have hnil := hwhole rest (heq ▸ hrest)
        rw [hnil, List.append_nil] at hrest
        exact hne hrest
      · have hnil := hwhole (newline :: rest) (by rw [← hrest, heq, List.append_assoc]; rfl)
        cases hnil

end Json
end Lib
end Koala
