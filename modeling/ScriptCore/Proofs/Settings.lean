import Mathlib.Algebra.Ring.Nat
import ScriptCore.Settings.Text

/-!
# Which sizes can be set

Integers of a document have 64 bits, and settings are checked against 0 only. So the sizes that
a text can set reach from 1 to the largest of these integers.

* `Toml.Fits`, `Toml.fits_of_read?`: the integers in the tables of a document.
* `Settings.sizes_of_ofTextBy`: the sizes in settings.
-/

namespace ScriptCore

namespace Toml

variable {v : Value} {s rest : List Char} {ls : List Line} {key : String}

/-- Whether a value, if it is an integer, is at most the largest with 64 bits. -/
def Value.Fits (v : Value) : Prop :=
  ∀ n, v = .integer n → n ≤ Int64.maxValue.toInt

/-- Whether the integers in the tables of a document are at most the largest with 64 bits. -/
def Fits (t : Toml) : Prop :=
  ∀ x ∈ t.tables, ∀ e ∈ x.2, e.2.Fits

theorem Value.fits_of_ofWord? (h : Value.ofWord? s = some v) : v.Fits := by
  unfold Value.ofWord? at h
  split at h
  · cases h
    exact nofun
  · split at h
    · cases h
      exact nofun
    · split at h
      · next n hn =>
        obtain ⟨m, -, hm⟩ := Option.bind_eq_some_iff.1 hn
        split_ifs at hm with hrange
        cases h
        cases hm
        rintro _ ⟨⟩
        exact hrange.2
      · split_ifs at h
        cases h
        exact nofun

theorem Value.fits_of_value? (h : value? s = some (v, rest)) : v.Fits := by
  unfold value? at h
  split at h
  · obtain ⟨_, -, hv⟩ := Option.map_eq_some_iff.1 h
    cases hv
    exact nofun
  · obtain ⟨_, -, hv⟩ := Option.map_eq_some_iff.1 h
    cases hv
    exact nofun
  · obtain ⟨_, hv, heq⟩ := Option.map_eq_some_iff.1 h
    cases heq
    exact Value.fits_of_ofWord? hv

theorem Line.fits_of_read? (h : Line.read? s = some (.entry key v)) : v.Fits := by
  unfold Line.read? at h
  split at h
  · obtain ⟨⟨name, s'⟩, -, hname⟩ := Option.bind_eq_some_iff.1 h
    dsimp only at hname
    split at hname
    · split_ifs at hname
      cases hname
    · cases hname
  · split_ifs at h
    · cases h
    · obtain ⟨⟨key', s'⟩, -, hkey⟩ := Option.bind_eq_some_iff.1 h
      dsimp only at hkey
      split at hkey
      · obtain ⟨⟨v', s''⟩, hv, hentry⟩ := Option.bind_eq_some_iff.1 hkey
        dsimp only at hentry
        split_ifs at hentry
        cases hentry
        exact Value.fits_of_value? hv
      · cases hkey

/-- The entries of a document stand in its lines. -/
theorem mem_of_group (ls : List Line) :
    (∀ e ∈ (group ls).entries, entryLine e ∈ ls) ∧
      ∀ t ∈ (group ls).tables, ∀ e ∈ t.2, entryLine e ∈ ls := by
  induction ls with
  | nil => exact ⟨nofun, nofun⟩
  | cons l ls ih =>
    obtain ⟨hentries, htables⟩ := ih
    have hold : ∀ t ∈ (group ls).tables, ∀ e ∈ t.2, entryLine e ∈ l :: ls := fun t ht e he =>
      List.mem_cons_of_mem l (htables t ht e he)
    cases l with
    | blank => exact ⟨fun e he => List.mem_cons_of_mem _ (hentries e he), hold⟩
    | header name =>
      refine ⟨nofun, List.forall_mem_cons.2 ⟨fun e he => ?_, hold⟩⟩
      exact List.mem_cons_of_mem _ (hentries e he)
    | entry key value =>
      refine ⟨List.forall_mem_cons.2 ⟨List.mem_cons_self, fun e he => ?_⟩, hold⟩
      exact List.mem_cons_of_mem _ (hentries e he)

theorem exists_line_of_mem {ss : List (List Char)} (h : ss.mapM Line.read? = some ls) {l : Line}
    (hl : l ∈ ls) : ∃ s ∈ ss, Line.read? s = some l := by
  induction ss generalizing ls with
  | nil =>
    cases h
    cases hl
  | cons s ss ih =>
    simp only [List.mapM_cons, Option.bind_eq_bind, Option.bind_eq_some_iff] at h
    obtain ⟨l', hl', ls', hls', heq⟩ := h
    cases heq
    rcases List.mem_cons.1 hl with rfl | hmem
    · exact ⟨s, List.mem_cons_self, hl'⟩
    · obtain ⟨s', hs', hread⟩ := ih hls' hmem
      exact ⟨s', List.mem_cons_of_mem s hs', hread⟩

/-- The integers in the tables of a document have 64 bits. -/
theorem fits_of_read? {text : String} {t : Toml} (h : read? text = some t) : t.Fits := by
  obtain ⟨ls, hls, ht⟩ := Option.bind_eq_some_iff.1 h
  rw [ofLines?] at ht
  split_ifs at ht
  obtain rfl := Option.some.inj ht
  intro x hx e he
  obtain ⟨s, -, hs⟩ := exists_line_of_mem hls ((mem_of_group ls).2 x hx e he)
  exact Line.fits_of_read? hs

end Toml

namespace Settings

variable {es : Toml.Entries} {key : String} {default n : Nat}

theorem lt_of_setting? (hes : ∀ e ∈ es, e.2.Fits) (hdefault : default < 2 ^ 63)
    (h : setting? es key natOf? default = some n) : n < 2 ^ 63 := by
  rw [setting?] at h
  cases hv : es.lookup key with
  | none =>
    rw [hv] at h
    obtain rfl := Option.some.inj h
    exact hdefault
  | some v =>
    rw [hv] at h
    obtain ⟨before, after, rfl, -⟩ := List.lookup_eq_some_iff.1 hv
    have hfits := hes (key, v) (by simp)
    cases v with
    | integer m =>
      have hm := hfits m rfl
      rw [show Int64.maxValue.toInt = 2 ^ 63 - 1 from rfl] at hm
      simp only [natOf?] at h
      split_ifs at h
      obtain rfl := Option.some.inj h
      omega
    | _ => cases h

theorem fits_of_table? {name : String} {t : Toml} (ht : t.Fits)
    (h : t.table? name = some es) : ∀ e ∈ es, e.2.Fits := by
  rw [Toml.table?] at h
  split_ifs at h
  obtain rfl := Option.some.inj h
  cases hlookup : t.tables.lookup name with
  | none => exact nofun
  | some es =>
    obtain ⟨before, after, htables, -⟩ := List.lookup_eq_some_iff.1 hlookup
    exact ht (name, es) (by simp [htables])

theorem lt_of_ofEntries? {s : LexerSection} (hes : ∀ e ∈ es, e.2.Fits)
    (h : LexerSection.ofEntries? es = some s) : s.tabSize < 2 ^ 63 ∧ s.maxIndent < 2 ^ 63 := by
  simp only [LexerSection.ofEntries?, Option.bind_eq_bind, Option.bind_eq_some_iff] at h
  obtain ⟨tabSize, htab, maxIndent, hindent, _, -, _, -, heq⟩ := h
  cases heq
  exact ⟨lt_of_setting? hes (by decide) htab, lt_of_setting? hes (by decide) hindent⟩

theorem pos_of_validate {s : Settings} (h : s.validate = .ok ()) :
    1 ≤ s.lexer.tabSize ∧ 1 ≤ s.lexer.maxIndent := by
  rw [validate] at h
  split_ifs at h with htab hindent
  exact ⟨Nat.one_le_iff_ne_zero.2 htab, Nat.one_le_iff_ne_zero.2 hindent⟩

theorem lt_of_ofToml? {t : Toml} {s : Settings} (ht : t.Fits) (h : ofToml? t = some s) :
    s.lexer.tabSize < 2 ^ 63 ∧ s.lexer.maxIndent < 2 ^ 63 := by
  simp only [ofToml?, Option.bind_eq_bind, Option.bind_eq_some_iff] at h
  obtain ⟨es, hes, lexer, hlexer, _, -, _, -, _, -, _, -, heq⟩ := h
  cases heq
  exact lt_of_ofEntries? (fits_of_table? ht hes) hlexer

/-- What is accepted is spelled by a document and means something. -/
theorem ofTextBy_eq_ok_iff {read : String → Option Toml} {text : String} {s : Settings} :
    ofTextBy read text = .ok s ↔
      (∃ t, read text = some t ∧ ofToml? t = some s) ∧ s.validate = .ok () := by
  rw [ofTextBy, ← Option.bind_eq_some_iff]
  cases (read text).bind ofToml? with
  | none => exact ⟨nofun, fun h => nomatch h.1⟩
  | some s' =>
    dsimp only
    constructor
    · intro h
      split at h
      · next hvalid =>
        cases h
        exact ⟨rfl, hvalid⟩
      · cases h
    · rintro ⟨⟨⟩, hvalid⟩
      rw [hvalid]

/-- **The sizes in settings** are at least 1 and below 2 ^ 63, if the integers of documents have
    64 bits. -/
theorem sizes_of_ofTextBy {read : String → Option Toml}
    (hread : ∀ text t, read text = some t → t.Fits) {text : String} {s : Settings}
    (h : ofTextBy read text = .ok s) :
    (1 ≤ s.lexer.tabSize ∧ s.lexer.tabSize < 2 ^ 63) ∧
      1 ≤ s.lexer.maxIndent ∧ s.lexer.maxIndent < 2 ^ 63 := by
  obtain ⟨⟨t, ht, hs⟩, hvalid⟩ := ofTextBy_eq_ok_iff.1 h
  obtain ⟨htab, hindent⟩ := lt_of_ofToml? (hread text t ht) hs
  obtain ⟨htab', hindent'⟩ := pos_of_validate hvalid
  exact ⟨⟨htab', htab⟩, hindent', hindent⟩

end Settings

end ScriptCore
