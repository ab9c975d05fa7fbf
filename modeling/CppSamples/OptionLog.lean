/-
**What `OptionParser` of `cxxopts.hpp` stores: a log of values.**

A run of the parser is a list of values that options receive, one behind the other; a second list
comes from what stands behind a double hyphen, and the defaults are between the two.  What an option
has stored in the end is what the texts of both lists give that have come to its hash.

Main definitions:

* `Cxxopts.OptionParser.received` — the texts of a log that come to a hash;
* `Cxxopts.OptionParser.Received` — what a value has stored after some texts;
* `Cxxopts.WellFormed` — the options that can be added.

Main results:

* `Cxxopts.OptionParser.parse_all_eq_ok` — a log can be taken apart by the hashes;
* `Cxxopts.OptionParser.parse_log` — **the result of a run is its log**;
* `Cxxopts.OptionParser.parse_texts` — **nothing is made up**: the values and the unmatched
  arguments come from the command line.
-/

import CppSamples.OptionValues

set_option relaxedAutoImplicit false
set_option autoImplicit false

namespace Cxxopts

open Function KeyedLog

variable {S H : Type}

namespace OptionParser

variable [DecidableEq H] {P : OptionParser S H} {T : Text → Prop} {p p' : Parser S H}
  {details : OptionDetails S} {name : Text} {s s' : State S H} {args remaining : List Text}

/-! ### What is stored under a hash -/

variable (P) in
/-- Under which hash a value is stored. -/
def key (e : OptionDetails S × Text) : H := P.hashOf e.1

/-- A value comes to an option, which may be new. -/
def act (e : OptionDetails S × Text) (store : Option (OptionValue S)) :
    Except Error (Option (OptionValue S)) :=
  ((store.getD .new).parse e.1 e.2).map some

/-- An entry of `m_sequential`. -/
def entry (e : OptionDetails S × Text) : Text × Text := (e.1.long_name, e.2)

variable (P) in
/-- The texts of a log that are stored under a hash. -/
def received (log : List (OptionDetails S × Text)) (k : H) : List Text :=
  (log.filter fun e => P.key e = k).map Prod.snd

theorem received_append_log (log log' : List (OptionDetails S × Text)) (k : H) :
    P.received (log ++ log') k = P.received log k ++ P.received log' k := by
  rw [received, received, received, List.filter_append, List.map_append]

/-- **A log of values is a list of entries, and a log under every hash.** -/
theorem parse_all_eq_ok {log : List (OptionDetails S × Text)} (h : P.parse_all log p = .ok p') :
    p'.m_sequential = p.m_sequential ++ log.map entry ∧
      replay P.key act log p.m_parsed = .ok p'.m_parsed := by
  induction log generalizing p with
  | nil =>
      cases h
      exact ⟨(List.append_nil _).symm, rfl⟩
  | cons e log ih =>
      obtain ⟨q, hq, hrest⟩ := bind_eq_ok.1 h
      obtain ⟨store, hstore, hq⟩ := map_eq_ok.1 hq
      obtain ⟨hseq, hreplay⟩ := ih hrest
      cases hq
      refine ⟨by rw [hseq, List.append_assoc]; rfl, ?_⟩
      have hact : act e (p.m_parsed (P.key e)) = .ok (some store) :=
        map_eq_ok.2 ⟨store, hstore, rfl⟩
      rw [replay_cons, hact]
      exact hreplay

/-- A value has received texts, in their order. -/
def Received (v : Value S) (texts : List Text) (store : OptionValue S) : Prop :=
  if texts = [] then store.m_value = none
  else ∃ stored,
    texts.foldlM (fun stored text => v.parse_value text stored) v.initial = .ok stored ∧
      store.m_value = some (v, stored)

theorem received_new (v : Value S) : Received v [] .new := by
  rw [Received, if_pos rfl]
  rfl

/-- One more text. -/
theorem received_append {v : Value S} {texts : List Text} {text : Text} {store : OptionValue S}
    {stored : S} (h : Received v texts store) (hv : details.value = v)
    (hparse : (store.ensure_value details).1.parse_value text (store.ensure_value details).2 =
      .ok stored) (store' : OptionValue S)
    (hstore : store'.m_value = some ((store.ensure_value details).1, stored)) :
    Received v (texts ++ [text]) store' := by
  rw [Received, if_neg (by simp)]
  rw [Received] at h
  split_ifs at h with hnil
  · subst hnil
    rw [OptionValue.ensure_value, h] at hparse hstore
    subst hv
    exact ⟨stored, bind_eq_ok.2 ⟨stored, hparse, rfl⟩, hstore⟩
  · obtain ⟨before, hbefore, hvalue⟩ := h
    rw [OptionValue.ensure_value, hvalue] at hparse hstore
    refine ⟨stored, ?_, hstore⟩
    rw [List.foldlM_append]
    exact bind_eq_ok.2 ⟨before, hbefore, bind_eq_ok.2 ⟨stored, hparse, rfl⟩⟩

theorem received_parse {v : Value S} {texts : List Text} {text : Text}
    {store store' : OptionValue S} (h : Received v texts store) (hv : details.value = v)
    (hparse : store.parse details text = .ok store') : Received v (texts ++ [text]) store' := by
  obtain ⟨stored, hstored, rfl⟩ := map_eq_ok.1 hparse
  exact received_append h hv hstored _ rfl

theorem received_parse_default {v : Value S} {texts : List Text} {store store' : OptionValue S}
    (h : Received v texts store) (hv : details.value = v)
    (hparse : store.parse_default details = .ok store') :
    Received v (texts ++ [v.default_value]) store' := by
  obtain ⟨stored, hstored, rfl⟩ := map_eq_ok.1 hparse
  have hensure : (store.ensure_value details).1 = v := by
    rw [Received] at h
    split_ifs at h with hnil
    · rw [OptionValue.ensure_value, h]
      exact hv
    · obtain ⟨before, -, hvalue⟩ := h
      rw [OptionValue.ensure_value, hvalue]
      rfl
  have htext : v.default_value = (store.ensure_value details).1.default_value := by rw [hensure]
  rw [htext]
  exact received_append h hv hstored _ rfl

variable {log : List (OptionDetails S × Text)} {k : H} {st st' : Option (OptionValue S)}

/-- What a log counts under a hash. -/
theorem count_replayAt (h : replayAt P.key act log k st = .ok st') :
    (st'.getD .new).m_count = (st.getD .new).m_count + (P.received log k).length ∧
      (st'.getD .new).m_default = (st.getD .new).m_default := by
  induction log generalizing st with
  | nil =>
      cases h
      exact ⟨rfl, rfl⟩
  | cons e log ih =>
      by_cases hk : P.key e = k
      · subst hk
        rw [replayAt_cons_self] at h
        obtain ⟨mid, hmid, hrest⟩ := bind_eq_ok.1 h
        obtain ⟨store, hparse, rfl⟩ := map_eq_ok.1 hmid
        obtain ⟨stored, -, rfl⟩ := map_eq_ok.1 hparse
        obtain ⟨hcount, hdefault⟩ := ih hrest
        refine ⟨?_, hdefault⟩
        rw [hcount, received, received, List.filter_cons_of_pos (by simp), List.map_cons,
          List.length_cons]
        simp only [Option.getD_some]
        omega
      · rw [replayAt_cons_of_ne hk] at h
        have hreceived : P.received (e :: log) k = P.received log k := by
          rw [received, received, List.filter_cons_of_neg (by simpa using hk)]
        rw [hreceived]
        exact ih h

/-- What a log stores under the hash of a single option. -/
theorem received_replayAt {v : Value S} {texts : List Text}
    (hv : ∀ e ∈ log, P.key e = k → e.1.value = v) (hst : Received v texts (st.getD .new))
    (h : replayAt P.key act log k st = .ok st') :
    Received v (texts ++ P.received log k) (st'.getD .new) := by
  induction log generalizing st texts with
  | nil =>
      cases h
      rw [received, List.filter_nil, List.map_nil, List.append_nil]
      exact hst
  | cons e log ih =>
      have hlog : ∀ e ∈ log, P.key e = k → e.1.value = v := fun e he =>
        hv e (List.mem_cons_of_mem _ he)
      by_cases hk : P.key e = k
      · subst hk
        rw [replayAt_cons_self] at h
        obtain ⟨mid, hmid, hrest⟩ := bind_eq_ok.1 h
        obtain ⟨store, hparse, rfl⟩ := map_eq_ok.1 hmid
        have hstep : Received v (texts ++ [e.2]) ((some store).getD .new) :=
          received_parse hst (hv e List.mem_cons_self rfl) hparse
        rw [received, List.filter_cons_of_pos (by simp), List.map_cons,
          List.append_cons]
        exact ih hlog hstep hrest
      · rw [replayAt_cons_of_ne hk] at h
        have hreceived : P.received (e :: log) k = P.received log k := by
          rw [received, received, List.filter_cons_of_neg (by simpa using hk)]
        rw [hreceived]
        exact ih hlog hst h

/-! ### Defaults -/

/-- What the default adds to some texts. -/
def withDefault (v : Value S) (texts : List Text) : List Text :=
  if texts = [] ∧ v.has_default then [v.default_value] else []

variable {store store' : OptionValue S} {options : List (Text × OptionDetails S)}

theorem count_add_default (h : store.add_default details = .ok store') :
    store'.m_count = store.m_count := by
  rw [OptionValue.add_default] at h
  split_ifs at h
  · obtain ⟨stored, -, rfl⟩ := map_eq_ok.1 h
    rfl
  · cases h
    rfl
  · cases h
    rfl

/-- The second name of an option adds nothing. -/
theorem add_default_again (h : store.add_default details = .ok store') :
    store'.add_default details = .ok store' := by
  rw [OptionValue.add_default] at h
  split_ifs at h with hdefault hnothing
  · obtain ⟨stored, -, rfl⟩ := map_eq_ok.1 h
    rw [OptionValue.add_default, if_pos hdefault, if_neg (by simp)]
  · cases h
    rw [OptionValue.add_default, if_pos hdefault, if_neg hnothing]
  · cases h
    rw [OptionValue.add_default, if_neg hdefault]
    rfl

theorem received_add_default {v : Value S} {texts : List Text} (hst : Received v texts store)
    (hcount : store.m_count = texts.length) (hfresh : store.m_default = false)
    (hv : details.value = v) (h : store.add_default details = .ok store') :
    Received v (texts ++ withDefault v texts) store' := by
  rw [OptionValue.add_default, hv, hcount, hfresh] at h
  rw [withDefault]
  split_ifs at h with hdefault hnothing
  · rw [if_pos ⟨List.length_eq_zero_iff.1 hnothing.1, hdefault⟩]
    exact received_parse_default hst hv h
  · cases h
    rw [if_neg fun hnil => hnothing ⟨List.length_eq_zero_iff.2 hnil.1, rfl⟩, List.append_nil]
    exact hst
  · cases h
    rw [if_neg fun hnil => hdefault hnil.2, List.append_nil]
    exact hst

variable (P) in
/-- Under which hash a default is stored. -/
def defaultKey (opt : Text × OptionDetails S) : H := P.hashOf opt.2

/-- The default comes to an option, which may be new. -/
def defaultAct (opt : Text × OptionDetails S) (store : Option (OptionValue S)) :
    Except Error (Option (OptionValue S)) :=
  ((store.getD .new).add_default opt.2).map some

/-- The loop over the options is a log, too. -/
theorem parse_defaults_eq_ok (h : P.parse_defaults options p = .ok p') :
    p'.m_sequential = p.m_sequential ∧
      replay P.defaultKey defaultAct options p.m_parsed = .ok p'.m_parsed := by
  induction options generalizing p with
  | nil =>
      cases h
      exact ⟨rfl, rfl⟩
  | cons opt options ih =>
      obtain ⟨store, hstore, hrest⟩ := bind_eq_ok.1 h
      obtain ⟨hseq, hreplay⟩ := ih hrest
      refine ⟨hseq, ?_⟩
      have hact : defaultAct opt (p.m_parsed (P.defaultKey opt)) = .ok (some store) :=
        map_eq_ok.2 ⟨store, hstore, rfl⟩
      rw [replay_cons, hact]
      exact hreplay

/-- The defaults do not count. -/
theorem count_defaults (h : replayAt P.defaultKey defaultAct options k st = .ok st') :
    (st'.getD .new).m_count = (st.getD .new).m_count := by
  induction options generalizing st with
  | nil =>
      cases h
      rfl
  | cons opt options ih =>
      by_cases hk : P.defaultKey opt = k
      · subst hk
        rw [replayAt_cons_self] at h
        obtain ⟨mid, hmid, hrest⟩ := bind_eq_ok.1 h
        obtain ⟨store, hstore, rfl⟩ := map_eq_ok.1 hmid
        rw [ih hrest]
        exact count_add_default hstore
      · rw [replayAt_cons_of_ne hk] at h
        exact ih h

/-- The default of a single option, which may have two names. -/
theorem defaults_single (hsingle : ∀ opt ∈ options, P.hashOf opt.2 = k → opt.2 = details)
    (h : replayAt P.defaultKey defaultAct options k st = .ok st') :
    st' = st ∧ (∀ opt ∈ options, P.hashOf opt.2 ≠ k) ∨
      (st.getD .new).add_default details = .ok (st'.getD .new) := by
  induction options generalizing st with
  | nil =>
      cases h
      exact Or.inl ⟨rfl, fun opt hopt => absurd hopt List.not_mem_nil⟩
  | cons opt options ih =>
      have hrest : ∀ opt ∈ options, P.hashOf opt.2 = k → opt.2 = details := fun opt hopt =>
        hsingle opt (List.mem_cons_of_mem _ hopt)
      by_cases hk : P.defaultKey opt = k
      · right
        have hopt : opt.2 = details := hsingle opt List.mem_cons_self hk
        subst hk
        rw [replayAt_cons_self] at h
        obtain ⟨mid, hmid, htail⟩ := bind_eq_ok.1 h
        obtain ⟨store, hstore, rfl⟩ := map_eq_ok.1 hmid
        rw [hopt] at hstore
        obtain ⟨rfl, -⟩ | hagain := ih hrest htail
        · exact hstore
        · have hsame : (some store).getD .new = st'.getD .new :=
            Except.ok.inj ((add_default_again hstore).symm.trans hagain)
          rw [← hsame]
          exact hstore
      · rw [replayAt_cons_of_ne hk] at h
        obtain ⟨hst, hnone⟩ | hdefault := ih hrest h
        · left
          refine ⟨hst, fun opt' hopt' => ?_⟩
          obtain rfl | htail := List.mem_cons.1 hopt'
          · exact hk
          · exact hnone opt' htail
        · exact Or.inr hdefault

/-! ### Aliases -/

/-- An entry that is missing is a new one. -/
theorem getD_finalise_values (values : H → Option (OptionValue S)) (k : H) :
    (P.finalise_values values k).getD .new = (values k).getD .new ∧
      ((values k).isSome ∨ (∃ opt ∈ P.m_options, P.hashOf opt.2 = k) →
        (P.finalise_values values k).isSome) := by
  rw [finalise_values]
  induction P.m_options generalizing values with
  | nil => exact ⟨rfl, fun h => h.elim id fun ⟨opt, hopt, _⟩ => absurd hopt List.not_mem_nil⟩
  | cons opt options ih =>
      rw [List.foldl_cons]
      obtain ⟨hvalue, hsome⟩ := ih (if values (P.hashOf opt.2) = none then
        update values (P.hashOf opt.2) (some .new) else values)
      by_cases hk : P.hashOf opt.2 = k
      · subst hk
        by_cases hnone : values (P.hashOf opt.2) = none
        · rw [if_pos hnone, update_self] at hvalue hsome
          rw [if_pos hnone, hnone]
          exact ⟨hvalue, fun _ => hsome (Or.inl rfl)⟩
        · rw [if_neg hnone] at hvalue hsome
          rw [if_neg hnone]
          exact ⟨hvalue, fun _ => hsome (Or.inl (Option.isSome_iff_ne_none.2 hnone))⟩
      · have hother : (if values (P.hashOf opt.2) = none then
            update values (P.hashOf opt.2) (some .new) else values) k = values k := by
          split_ifs
          · exact update_of_ne (Ne.symm hk) _ _
          · rfl
        rw [hother] at hvalue hsome
        refine ⟨hvalue, fun h => hsome ?_⟩
        obtain h | ⟨opt', hopt', hk'⟩ := h
        · exact Or.inl h
        · obtain rfl | htail := List.mem_cons.1 hopt'
          · exact absurd hk' hk
          · exact Or.inr ⟨opt', htail, hk'⟩

end OptionParser

/-- The options that can be added: every name leads to one option, and an option is found under both
of its names. -/
structure WellFormed (options : List (Text × OptionDetails S)) : Prop where
  names : (options.map Prod.fst).Nodup
  nonempty : ∀ opt ∈ options, opt.1 ≠ []
  complete : ∀ opt ∈ options, ∀ name, name = opt.2.short_name ∨ name = opt.2.long_name →
    name ≠ [] → (name, opt.2) ∈ options
  named : ∀ opt ∈ options, opt.1 = opt.2.short_name ∨ opt.1 = opt.2.long_name

namespace WellFormed

variable {options options' : List (Text × OptionDetails S)} {details : OptionDetails S}
  {name : Text}

theorem nil : WellFormed ([] : List (Text × OptionDetails S)) where
  names := List.nodup_nil
  nonempty := fun _ hopt => absurd hopt List.not_mem_nil
  complete := fun _ hopt => absurd hopt List.not_mem_nil
  named := fun _ hopt => absurd hopt List.not_mem_nil

/-- The order of the options is open. -/
theorem perm (h : WellFormed options) (hperm : options.Perm options') : WellFormed options' where
  names := (hperm.map _).nodup_iff.1 h.names
  nonempty := fun opt hopt => h.nonempty opt (hperm.mem_iff.2 hopt)
  complete := fun opt hopt name hname hne =>
    hperm.mem_iff.1 (h.complete opt (hperm.mem_iff.2 hopt) name hname hne)
  named := fun opt hopt => h.named opt (hperm.mem_iff.2 hopt)

/-- A name leads to one option. -/
theorem lookup_eq_some_iff (h : (options.map Prod.fst).Nodup) :
    options.lookup name = some details ↔ (name, details) ∈ options := by
  induction options with
  | nil => simp
  | cons opt options ih =>
      obtain ⟨n, d⟩ := opt
      obtain ⟨hn, hrest⟩ := List.nodup_cons.1 h
      rw [List.mem_cons, Prod.mk.injEq]
      by_cases hname : name = n
      · subst hname
        have hnone : (name, details) ∉ options := fun hmem => hn (List.mem_map.2 ⟨_, hmem, rfl⟩)
        rw [List.lookup_cons_self, Option.some.injEq]
        constructor
        · intro hd
          exact Or.inl ⟨rfl, hd.symm⟩
        · rintro (⟨-, hd⟩ | hmem)
          · exact hd.symm
          · exact absurd hmem hnone
      · have hbeq : (name == n) = false := beq_eq_false_iff_ne.2 hname
        rw [List.lookup_cons, hbeq]
        refine (ih hrest).trans ⟨Or.inr, ?_⟩
        rintro (⟨hn, -⟩ | hmem)
        · exact absurd hn hname
        · exact hmem

theorem lookup_eq_none_iff : options.lookup name = none ↔ name ∉ options.map Prod.fst := by
  induction options with
  | nil => simp
  | cons opt options ih =>
      obtain ⟨n, d⟩ := opt
      rw [List.map_cons, List.mem_cons, not_or]
      by_cases hname : name = n
      · subst hname
        rw [List.lookup_cons_self]
        simp
      · have hbeq : (name == n) = false := beq_eq_false_iff_ne.2 hname
        rw [List.lookup_cons, hbeq]
        exact ih.trans ⟨fun h => ⟨hname, h⟩, And.right⟩

/-- A name that is new. -/
theorem add_one_option_of_new (h : name ∉ options.map Prod.fst) :
    add_one_option name details options = .ok ((name, details) :: options) := by
  rw [add_one_option, lookup_eq_none_iff.2 h]
  rfl

/-- An option with new names. -/
theorem append {names : List Text} (h : WellFormed options)
    (hnodup : (names ++ options.map Prod.fst).Nodup)
    (hnames : ∀ n, n ∈ names ↔ n ≠ [] ∧ (n = details.short_name ∨ n = details.long_name)) :
    WellFormed (names.map (fun n => (n, details)) ++ options) where
  names := by
    rw [List.map_append, List.map_map]
    simpa [Function.comp_def] using hnodup
  nonempty := by
    intro opt hopt
    obtain hopt | hopt := List.mem_append.1 hopt
    · obtain ⟨n, hn, rfl⟩ := List.mem_map.1 hopt
      exact ((hnames n).1 hn).1
    · exact h.nonempty opt hopt
  complete := by
    intro opt hopt name hname hne
    obtain hopt | hopt := List.mem_append.1 hopt
    · obtain ⟨n, hn, rfl⟩ := List.mem_map.1 hopt
      exact List.mem_append_left _ (List.mem_map.2 ⟨name, (hnames name).2 ⟨hne, hname⟩, rfl⟩)
    · exact List.mem_append_right _ (h.complete opt hopt name hname hne)
  named := by
    intro opt hopt
    obtain hopt | hopt := List.mem_append.1 hopt
    · obtain ⟨n, hn, rfl⟩ := List.mem_map.1 hopt
      exact ((hnames n).1 hn).2
    · exact h.named opt hopt

theorem add_option {s l : Text} {value : Value S} (h : WellFormed options)
    (hadd : add_option s l value options = .ok options') : WellFormed options' := by
  obtain ⟨mid, hshort, hlong⟩ := bind_eq_ok.1 hadd
  have hone {n : Text} {os os' : List (Text × OptionDetails S)}
      (hos : add_one_option n ⟨s, l, value⟩ os = .ok os') :
      n ∉ os.map Prod.fst ∧ os' = (n, ⟨s, l, value⟩) :: os := by
    rw [add_one_option] at hos
    split_ifs at hos with hsome
    exact ⟨lookup_eq_none_iff.1 (Option.not_isSome_iff_eq_none.1 hsome), (Except.ok.inj hos).symm⟩
  by_cases hs : s = []
  · rw [if_neg (not_not.2 hs)] at hshort
    cases hshort
    by_cases hl : l = []
    · rw [if_neg (not_not.2 hl)] at hlong
      cases hlong
      exact h
    · rw [if_pos hl] at hlong
      obtain ⟨hnew, rfl⟩ := hone hlong
      refine @append _ _ ⟨s, l, value⟩ [l] h (List.nodup_cons.2 ⟨hnew, h.names⟩) fun n => ?_
      rw [List.mem_singleton]
      constructor
      · rintro rfl
        exact ⟨hl, Or.inr rfl⟩
      · rintro ⟨hn, rfl | rfl⟩
        · exact absurd hs hn
        · rfl
  · rw [if_pos hs] at hshort
    obtain ⟨hnew, rfl⟩ := hone hshort
    by_cases hl : l = []
    · rw [if_neg (not_not.2 hl)] at hlong
      cases hlong
      refine @append _ _ ⟨s, l, value⟩ [s] h (List.nodup_cons.2 ⟨hnew, h.names⟩) fun n => ?_
      rw [List.mem_singleton]
      constructor
      · rintro rfl
        exact ⟨hs, Or.inl rfl⟩
      · rintro ⟨hn, rfl | rfl⟩
        · rfl
        · exact absurd hl hn
    · rw [if_pos hl] at hlong
      obtain ⟨hnew', rfl⟩ := hone hlong
      refine @append _ _ ⟨s, l, value⟩ [l, s] h
        (List.nodup_cons.2 ⟨hnew', List.nodup_cons.2 ⟨hnew, h.names⟩⟩) fun n => ?_
      rw [List.mem_cons, List.mem_singleton]
      constructor
      · rintro (rfl | rfl)
        · exact ⟨hl, Or.inr rfl⟩
        · exact ⟨hs, Or.inl rfl⟩
      · rintro ⟨-, rfl | rfl⟩
        · exact Or.inr rfl
        · exact Or.inl rfl

theorem add_options {SplitSwitchDef : Text → Except Error (Text × Text)}
    {defs : List (Text × Value S)} (hadd : add_options SplitSwitchDef defs = .ok options) :
    WellFormed options := by
  have hrun (defs : List (Text × Value S)) {os os' : List (Text × OptionDetails S)}
      (hos : WellFormed os)
      (hadd : defs.foldlM (fun options d => option_adder SplitSwitchDef d.1 d.2 options) os =
        .ok os') : WellFormed os' := by
    induction defs generalizing os with
    | nil =>
        cases hadd
        exact hos
    | cons d defs ih =>
        obtain ⟨mid, hd, hrest⟩ := bind_eq_ok.1 hadd
        refine ih ?_ hrest
        obtain ⟨⟨short_sw, long_sw⟩, -, hd⟩ := bind_eq_ok.1 hd
        simp only at hd
        split_ifs at hd
        · exact hos.add_option hd
        · exact hos.add_option hd
  exact hrun defs nil hadd

end WellFormed

namespace OptionParser

variable [DecidableEq H] {P : OptionParser S H} {T : Text → Prop} {details : OptionDetails S}
  {name : Text} {argv : List Text} {r : ParseResult S H}

omit [DecidableEq H] in
/-- Every name leads to the hash of its option. -/
theorem finalise_keys_eq (h : WellFormed P.m_options) (hfind : P.find name = some details) :
    P.finalise_keys name = some (P.hashOf details) := by
  have hmem : (name, details) ∈ P.m_options := (WellFormed.lookup_eq_some_iff h.names).1 hfind
  have hother : ∀ opt ∈ P.m_options, name = opt.2.short_name ∨ name = opt.2.long_name →
      P.hashOf opt.2 = P.hashOf details := by
    intro opt hopt hname
    have hopt' := h.complete opt hopt name hname (h.nonempty _ hmem)
    have hsame := ((WellFormed.lookup_eq_some_iff h.names).2 hopt').symm.trans hfind
    rw [Option.some.inj hsame]
  have hrun (l : List (Text × OptionDetails S)) (keys : Text → Option H)
      (hl : ∀ opt ∈ l, name = opt.2.short_name ∨ name = opt.2.long_name →
        P.hashOf opt.2 = P.hashOf details)
      (hkeys : keys name = some (P.hashOf details) ∨
        ∃ opt ∈ l, name = opt.2.short_name ∨ name = opt.2.long_name) :
      l.foldl P.add_keys keys name = some (P.hashOf details) := by
    induction l generalizing keys with
    | nil =>
        obtain hkeys | ⟨opt, hopt, -⟩ := hkeys
        · exact hkeys
        · exact absurd hopt List.not_mem_nil
    | cons opt l ih =>
        rw [List.foldl_cons]
        refine ih _ (fun opt' hopt' => hl opt' (List.mem_cons_of_mem _ hopt')) ?_
        by_cases hname : name = opt.2.short_name ∨ name = opt.2.long_name
        · left
          have hhash := hl opt List.mem_cons_self hname
          rw [add_keys]
          by_cases hlong : name = opt.2.long_name
          · rw [hlong, update_self, hhash]
          · rw [update_of_ne hlong, hname.resolve_right hlong, update_self, hhash]
        · rw [not_or] at hname
          rw [add_keys, update_of_ne hname.2, update_of_ne hname.1]
          refine hkeys.imp_right ?_
          rintro ⟨opt', hopt', hname'⟩
          obtain rfl | htail := List.mem_cons.1 hopt'
          · exact absurd hname' (not_or.2 hname)
          · exact ⟨opt', htail, hname'⟩
  exact hrun P.m_options _ hother (Or.inr ⟨_, hmem, h.named _ hmem⟩)

/-- Without a double hyphen nothing is left. -/
theorem remaining_eq_nil {s s' : State S H} {args remaining : List Text} (hargs : ['-', '-'] ∉ args)
    (h : P.parse_args args s = .ok (s', remaining)) : remaining = [] := by
  induction args using args_induction generalizing s with
  | nil =>
      cases h
      rfl
  | cons arg rest ih ih_tail =>
      rw [List.mem_cons, not_or] at hargs
      obtain ⟨harg, hrest⟩ := hargs
      rw [parse_args_cons rest (Ne.symm harg)] at h
      obtain ⟨⟨t, taken⟩, -, htail⟩ := bind_eq_ok.1 h
      cases taken with
      | false => exact ih hrest htail
      | true => exact ih_tail (fun hmem => hrest (List.mem_of_mem_tail hmem)) htail

/-- **A run in three parts**: values, defaults, and the values behind a double hyphen. -/
theorem parse_eq_ok (hT : ∀ arg ∈ argv, P.Scans T arg) (h : P.parse argv = .ok r) :
    ∃ (before after : List (OptionDetails S × Text)) (p q p' : Parser S H),
      P.parse_all before ⟨[], fun _ => none⟩ = .ok p ∧
      P.parse_defaults P.m_options p = .ok q ∧ P.parse_all after q = .ok p' ∧
      (∀ e ∈ before ++ after, P.Allowed T e) ∧ (['-', '-'] ∉ argv → after = []) ∧
      r.m_keys = P.finalise_keys ∧ r.m_values = P.finalise_values p'.m_parsed ∧
      r.m_sequential = p'.m_sequential ∧ r.m_unmatched.Sublist argv := by
  obtain ⟨⟨s, remaining⟩, hargs, hrest⟩ := bind_eq_ok.1 h
  obtain ⟨q, hdefaults, hrest⟩ := bind_eq_ok.1 hrest
  obtain ⟨s', hremaining, rfl⟩ := map_eq_ok.1 hrest
  obtain ⟨⟨before, hbefore, hallowed⟩, u, hu, hsub⟩ := parse_args_spec hT hargs
  have hmem : ∀ arg ∈ remaining, T arg := fun arg harg =>
    (hT arg (hsub.subset (List.mem_append_right u harg))).1
  obtain ⟨⟨after, hafter, hallowed'⟩, u', hu', hsub'⟩ := parse_remaining_spec hmem hremaining
  have hunmatched : s'.unmatched.Sublist argv := by
    rw [hu', hu, List.nil_append]
    exact ((List.Sublist.refl u).append hsub').trans hsub
  by_cases hnil : remaining = []
  · subst hnil
    cases hremaining
    exact ⟨before, [], s.parser, q, q, hbefore, hdefaults, rfl,
      List.forall_mem_append.2 ⟨hallowed, fun e he => absurd he List.not_mem_nil⟩, fun _ => rfl,
      rfl, rfl, rfl, hunmatched⟩
  · exact ⟨before, after, s.parser, q, s'.parser, hbefore, hdefaults, hafter,
      List.forall_mem_append.2 ⟨hallowed, hallowed'⟩,
      fun hdashes => absurd (remaining_eq_nil hdashes hargs) hnil, rfl, rfl, rfl, hunmatched⟩

/-- **The result of a run is its log.** -/
theorem parse_log {SplitSwitchDef : Text → Except Error (Text × Text)}
    {defs : List (Text × Value S)} {options : List (Text × OptionDetails S)}
    (hadd : add_options SplitSwitchDef defs = .ok options) (hperm : options.Perm P.m_options)
    (h : P.parse argv = .ok r) :
    ∃ before after : List (OptionDetails S × Text),
      r.m_sequential = (before ++ after).map entry ∧ (['-', '-'] ∉ argv → after = []) ∧
      ∀ name details, P.find name = some details →
        r.count name = (P.received (before ++ after) (P.hashOf details)).length ∧
        ∃ store, r.get name = .ok store ∧
          ((∀ other, P.Registered other → P.hashOf other = P.hashOf details → other = details) →
            Received details.value
              (P.received before (P.hashOf details) ++
                withDefault details.value (P.received before (P.hashOf details)) ++
                P.received after (P.hashOf details)) store) := by
  have hwell : WellFormed P.m_options := (WellFormed.add_options hadd).perm hperm
  have hT : ∀ arg ∈ argv, P.Scans (fun _ => True) arg := fun _ _ =>
    ⟨trivial, fun _ _ => ⟨trivial, fun _ _ _ => trivial⟩⟩
  obtain ⟨before, after, p, q, p', hbefore, hdefaults, hafter, hallowed, hdashes, hkeys, hvalues,
    hsequential, -⟩ := parse_eq_ok hT h
  obtain ⟨hseq, hreplay⟩ := parse_all_eq_ok hbefore
  obtain ⟨hseq', hreplay'⟩ := parse_defaults_eq_ok hdefaults
  obtain ⟨hseq'', hreplay''⟩ := parse_all_eq_ok hafter
  refine ⟨before, after, ?_, hdashes, ?_⟩
  · rw [hsequential, hseq'', hseq', hseq, List.map_append]
    rfl
  · intro name details hfind
    have hmem : (name, details) ∈ P.m_options := (WellFormed.lookup_eq_some_iff hwell.names).1 hfind
    have hat := replay_eq_ok_iff.1 hreplay (P.hashOf details)
    have hat' := replay_eq_ok_iff.1 hreplay' (P.hashOf details)
    have hat'' := replay_eq_ok_iff.1 hreplay'' (P.hashOf details)
    obtain ⟨hvalue, hsome⟩ := @getD_finalise_values S H _ P p'.m_parsed (P.hashOf details)
    obtain ⟨store, hstore⟩ := Option.isSome_iff_exists.1 (hsome (Or.inr ⟨_, hmem, rfl⟩))
    rw [hstore, Option.getD_some] at hvalue
    obtain ⟨hcount, hdefault⟩ := count_replayAt hat
    obtain ⟨hcount'', -⟩ := count_replayAt hat''
    have hcount' := count_defaults hat'
    have hstorecount : store.m_count =
        (P.received (before ++ after) (P.hashOf details)).length := by
      rw [hvalue, hcount'', hcount', hcount, received_append_log, List.length_append]
      exact congrArg (· + _) (Nat.zero_add _)
    have hkey : r.m_keys name = some (P.hashOf details) := by
      rw [hkeys, finalise_keys_eq hwell hfind]
    refine ⟨?_, store, ?_, ?_⟩
    · simp only [ParseResult.count, hkey, hvalues, hstore]
      exact hstorecount
    · simp only [ParseResult.get, hkey, hvalues, hstore]
    · intro hsingle
      have hv : ∀ e ∈ before ++ after, P.key e = P.hashOf details → e.1.value = details.value :=
        fun e he hk => by rw [hsingle e.1 (hallowed e he).1 hk]
      have hopt : ∀ opt ∈ P.m_options, P.hashOf opt.2 = P.hashOf details → opt.2 = details :=
        fun opt hopt hk => hsingle opt.2
          ⟨opt.1, (WellFormed.lookup_eq_some_iff hwell.names).2 hopt⟩ hk
      have hreceived := received_replayAt (fun e he => hv e (List.mem_append_left _ he))
        (received_new details.value) hat
      rw [List.nil_append] at hreceived
      obtain ⟨-, hnone⟩ | hadded := defaults_single hopt hat'
      · exact absurd rfl (hnone _ hmem)
      · have hreceived' := received_add_default hreceived
          (hcount.trans (Nat.zero_add _)) hdefault rfl hadded
        rw [hvalue]
        exact received_replayAt (fun e he => hv e (List.mem_append_right _ he)) hreceived' hat''

/-- The options of `solver.cpp`, each under two names. -/
theorem mem_of_registered_solver {d : OptionDetails Stored} (h : solver.Registered d) :
    d ∈ [⟨['h'], ['h', 'e', 'l', 'p'], standard_value_bool⟩,
      ⟨['p'], ['p', 'r', 'm'], standard_value_strings⟩,
      ⟨['b'], ['b', 'l', 'o', 'c', 'k', '-', 's', 'i', 'z', 'e'], standard_value_int ['1']⟩,
      ⟨['A'], ['m', 'a', 't', 'r', 'i', 'x'], standard_value_string⟩] := by
  obtain ⟨name, hfind⟩ := h
  have hnames := (WellFormed.add_options solver_added).names
  have hmem := List.mem_map_of_mem (f := fun opt => opt.2)
    ((WellFormed.lookup_eq_some_iff hnames).1 hfind)
  have hoptions : solver.m_options.map (fun opt => opt.2) =
      [⟨['h'], ['h', 'e', 'l', 'p'], standard_value_bool⟩,
        ⟨['h'], ['h', 'e', 'l', 'p'], standard_value_bool⟩,
        ⟨['p'], ['p', 'r', 'm'], standard_value_strings⟩,
        ⟨['p'], ['p', 'r', 'm'], standard_value_strings⟩,
        ⟨['b'], ['b', 'l', 'o', 'c', 'k', '-', 's', 'i', 'z', 'e'], standard_value_int ['1']⟩,
        ⟨['b'], ['b', 'l', 'o', 'c', 'k', '-', 's', 'i', 'z', 'e'], standard_value_int ['1']⟩,
        ⟨['A'], ['m', 'a', 't', 'r', 'i', 'x'], standard_value_string⟩,
        ⟨['A'], ['m', 'a', 't', 'r', 'i', 'x'], standard_value_string⟩] := rfl
  rw [hoptions] at hmem
  simpa only [List.mem_cons, or_self_left] using hmem

/-- No two options of `solver.cpp` have one hash. -/
theorem solver_hashOf_inj {d d' : OptionDetails Stored} (h : solver.Registered d)
    (h' : solver.Registered d') (hhash : solver.hashOf d = solver.hashOf d') : d = d' :=
  List.inj_on_of_nodup_map (by decide) (mem_of_registered_solver h)
    (mem_of_registered_solver h') hhash

/-- A matrix and the help, for `solver.cpp`. -/
theorem parse_log_solver : ∃ r store, solver.parse [['-', 'A', 'm'], ['-', 'h']] = .ok r ∧
    r.get ['m', 'a', 't', 'r', 'i', 'x'] = .ok store ∧
    store.m_value = some (standard_value_string, .string ['m']) ∧
    ∃ before : List (OptionDetails Stored × Text), r.m_sequential = before.map entry ∧
      r.count ['m', 'a', 't', 'r', 'i', 'x'] =
        (solver.received before ['m', 'a', 't', 'r', 'i', 'x', 'A']).length ∧
      Received standard_value_string
        (solver.received before ['m', 'a', 't', 'r', 'i', 'x', 'A']) store := by
  obtain ⟨r, store, hr, hget, hvalue⟩ : ∃ r store,
      solver.parse [['-', 'A', 'm'], ['-', 'h']] = .ok r ∧
        r.get ['m', 'a', 't', 'r', 'i', 'x'] = .ok store ∧
        store.m_value = some (standard_value_string, .string ['m']) := ⟨_, _, rfl, rfl, rfl⟩
  obtain ⟨before, after, hseq, hafter, hlog⟩ := parse_log solver_added (List.Perm.refl _) hr
  obtain rfl := hafter (by decide)
  obtain ⟨hcount, store', hget', hreceived⟩ :=
    hlog ['m', 'a', 't', 'r', 'i', 'x']
      ⟨['A'], ['m', 'a', 't', 'r', 'i', 'x'], standard_value_string⟩ rfl
  obtain rfl := Except.ok.inj (hget.symm.trans hget')
  rw [List.append_nil] at hseq hcount
  refine ⟨r, store, hr, hget, hvalue, before, hseq, hcount, ?_⟩
  have hstore := hreceived fun other hother hhash =>
    solver_hashOf_inj hother ⟨['m', 'a', 't', 'r', 'i', 'x'], rfl⟩ hhash
  have hkey : solver.hashOf ⟨['A'], ['m', 'a', 't', 'r', 'i', 'x'], standard_value_string⟩ =
      ['m', 'a', 't', 'r', 'i', 'x', 'A'] := rfl
  -- a text has no default, and nothing is behind a double hyphen
  have hdefault : withDefault standard_value_string
      (solver.received before ['m', 'a', 't', 'r', 'i', 'x', 'A']) = [] :=
    if_neg fun h => Bool.false_ne_true h.2
  have hnone : solver.received [] ['m', 'a', 't', 'r', 'i', 'x', 'A'] = [] := rfl
  simpa only [hkey, hdefault, hnone, List.append_nil] using hstore

/-- The scanner by hand takes texts from the end of an argument. -/
theorem suffix_of_scan {arg : Text} {d : ArguDesc} (h : ByHand.ParseArgument arg = some d) :
    d.value <:+ c_str arg ∧ (d.grouping = true → d.arg_name <:+ c_str arg) := by
  simp only [ByHand.ParseArgument] at h
  split_ifs at h with hlong hshort hname
  · have hdrop : (c_str arg).drop 2 <:+ c_str arg := List.drop_suffix 2 _
    cases hpdata : (c_str arg).drop 2 with
    | nil =>
        rw [hpdata] at h
        cases h
    | cons c rest =>
        simp only [hpdata] at h
        split_ifs at h
        rw [hpdata] at hdrop
        have hend : rest.dropWhile isWord <:+ c_str arg :=
          (List.dropWhile_suffix isWord).trans ((List.suffix_cons c rest).trans hdrop)
        split at h
        · rename_i value hvalue
          cases h
          rw [hvalue] at hend
          exact ⟨(List.suffix_cons _ value).trans hend,
            fun hgroup => absurd hgroup Bool.false_ne_true⟩
        · cases h
          exact ⟨List.nil_suffix, fun hgroup => absurd hgroup Bool.false_ne_true⟩
        · cases h
  · simp only [Bool.and_eq_true, List.isEmpty_iff] at hname
    cases h
    refine ⟨List.nil_suffix, fun _ => ?_⟩
    have hsplit := List.takeWhile_append_dropWhile (p := isalnum) (l := (c_str arg).drop 1)
    rw [hname.2, List.append_nil] at hsplit
    rw [hsplit]
    exact List.drop_suffix 1 _

omit [DecidableEq H] in
/-- The scanners take texts from the end of an argument. -/
theorem scans_of_scanner {arg : Text} (hscan : IsScanner P.ParseArgument) (harg : '\x00' ∉ arg)
    (hT : ∀ t, t <:+ arg → T t) : P.Scans T arg := by
  refine ⟨hT arg List.suffix_rfl, fun d hd => ?_⟩
  obtain ⟨hvalue, hname⟩ := suffix_of_scan (hscan.hand_eq_some hd)
  rw [c_str_eq harg] at hvalue hname
  exact ⟨hT _ hvalue, fun hgroup t ht => hT t (ht.trans (hname hgroup))⟩

/-- **Nothing is made up**: every value is the implicit one of its option or the end of an argument,
and the unmatched arguments are arguments in their order. -/
theorem parse_texts (hscan : IsScanner P.ParseArgument) (hargv : ∀ arg ∈ argv, '\x00' ∉ arg)
    (h : P.parse argv = .ok r) :
    r.m_unmatched.Sublist argv ∧ ∀ e ∈ r.m_sequential, ∃ details, P.Registered details ∧
      e.1 = details.long_name ∧
      (details.value.has_implicit ∧ e.2 = details.value.implicit_value ∨
        ∃ arg ∈ argv, e.2 <:+ arg) := by
  have hT : ∀ arg ∈ argv, P.Scans (fun t => ∃ arg ∈ argv, t <:+ arg) arg := fun arg harg =>
    scans_of_scanner hscan (hargv arg harg) fun t ht => ⟨arg, harg, ht⟩
  obtain ⟨before, after, p, q, p', hbefore, hdefaults, hafter, hallowed, -, -, -, hsequential,
    hunmatched⟩ := parse_eq_ok hT h
  obtain ⟨hseq, -⟩ := parse_all_eq_ok hbefore
  obtain ⟨hseq', -⟩ := parse_defaults_eq_ok hdefaults
  obtain ⟨hseq'', -⟩ := parse_all_eq_ok hafter
  refine ⟨hunmatched, fun e he => ?_⟩
  rw [hsequential, hseq'', hseq', hseq, List.nil_append, ← List.map_append] at he
  obtain ⟨event, hevent, rfl⟩ := List.mem_map.1 he
  obtain ⟨hregistered, htext⟩ := hallowed event hevent
  exact ⟨event.1, hregistered, rfl, htext⟩

/-- A matrix for `solver.cpp`, and what it does not know. -/
theorem parse_texts_solver : ∃ r, solver.parse [['-', 'A', 'm'], ['r', 'h', 's']] = .ok r ∧
    r.m_unmatched = [['r', 'h', 's']] ∧
    r.m_sequential = [(['m', 'a', 't', 'r', 'i', 'x'], ['m'])] ∧
    r.m_unmatched.Sublist [['-', 'A', 'm'], ['r', 'h', 's']] ∧
    ∃ details, solver.Registered details ∧ ['m', 'a', 't', 'r', 'i', 'x'] = details.long_name ∧
      (details.value.has_implicit ∧ ['m'] = details.value.implicit_value ∨
        ∃ arg ∈ [['-', 'A', 'm'], ['r', 'h', 's']], ['m'] <:+ arg) := by
  obtain ⟨r, hr, hunmatched, hsequential⟩ : ∃ r,
      solver.parse [['-', 'A', 'm'], ['r', 'h', 's']] = .ok r ∧
        r.m_unmatched = [['r', 'h', 's']] ∧
        r.m_sequential = [(['m', 'a', 't', 'r', 'i', 'x'], ['m'])] := ⟨_, rfl, rfl, rfl⟩
  obtain ⟨hsub, htexts⟩ := parse_texts (Or.inl rfl) (by decide) hr
  refine ⟨r, hr, hunmatched, hsequential, hsub, htexts (_, ['m']) ?_⟩
  rw [hsequential]
  exact List.mem_singleton_self _

/-! ### Two options under one hash -/

/-- Two names that lead to one hash lead to one store. -/
theorem get_eq_of_hash {name' : Text} {details' : OptionDetails S} (hwell : WellFormed P.m_options)
    (hfind : P.find name = some details) (hfind' : P.find name' = some details')
    (hhash : P.hashOf details = P.hashOf details') (h : P.parse argv = .ok r) :
    r.count name = r.count name' ∧
      ∃ store, r.get name = .ok store ∧ r.get name' = .ok store := by
  have hT : ∀ arg ∈ argv, P.Scans (fun _ => True) arg := fun _ _ =>
    ⟨trivial, fun _ _ => ⟨trivial, fun _ _ _ => trivial⟩⟩
  obtain ⟨before, after, p, q, p', -, -, -, -, -, hkeys, hvalues, -, -⟩ := parse_eq_ok hT h
  have hkey : r.m_keys name = some (P.hashOf details) := by
    rw [hkeys, finalise_keys_eq hwell hfind]
  have hkey' : r.m_keys name' = some (P.hashOf details) := by
    rw [hkeys, finalise_keys_eq hwell hfind', hhash]
  have hmem : (name, details) ∈ P.m_options := (WellFormed.lookup_eq_some_iff hwell.names).1 hfind
  obtain ⟨-, hsome⟩ := @getD_finalise_values S H _ P p'.m_parsed (P.hashOf details)
  obtain ⟨store, hstore⟩ := Option.isSome_iff_exists.1 (hsome (Or.inr ⟨_, hmem, rfl⟩))
  refine ⟨?_, store, ?_, ?_⟩
  · simp only [ParseResult.count, hkey, hkey']
  · simp only [ParseResult.get, hkey, hvalues, hstore]
  · simp only [ParseResult.get, hkey', hvalues, hstore]

/-- **Two options can share what they receive**: one with a short name, and one whose long name is
the long and the short name of the other.  Both can be added, and no run tells them apart. -/
theorem shared_store {SplitSwitchDef : Text → Except Error (Text × Text)}
    (hscan : IsDefScanner SplitSwitchDef) {c : Char} {w : Text} (hc : isalnum c = true)
    (hw : LongName w) (v v' : Value S) :
    ∃ options, add_options SplitSwitchDef [(c :: ',' :: w, v), (w ++ [c], v')] = .ok options ∧
      ∀ P : OptionParser S H, options.Perm P.m_options → ∀ argv r, P.parse argv = .ok r →
        r.count w = r.count (w ++ [c]) ∧
          ∃ store, r.get w = .ok store ∧ r.get (w ++ [c]) = .ok store := by
  have hnull := hw.no_null
  have hcnull := isalnum_ne_null hc
  have hfirst : SplitSwitchDef (c :: ',' :: w) = .ok ([c], w) := by
    apply hscan.eq_ok hw
    rw [c_str_eq (by simpa using ⟨hcnull.symm, hnull⟩), shortName]
    exact if_pos hc
  have hlong : LongName (w ++ [c]) := by
    obtain ⟨x, rest, rfl, hx, -, hall⟩ := hw
    refine ⟨x, rest ++ [c], rfl, hx, by simp, ?_⟩
    rw [List.all_append, hall, List.all_cons, isWord_of_isalnum hc]
    rfl
  have hsecond : SplitSwitchDef (w ++ [c]) = .ok ([], w ++ [c]) := by
    apply hscan.eq_ok hlong
    rw [c_str_eq hlong.no_null]
    exact shortName_of_longName hlong
  have hlength := hw.two_le
  let d : OptionDetails S := ⟨[c], w, v⟩
  let d' : OptionDetails S := ⟨[], w ++ [c], v'⟩
  have hnil : w ≠ [] := by
    rintro rfl
    simp at hlength
  have hadder : option_adder SplitSwitchDef (c :: ',' :: w) v [] = .ok [(w, d), ([c], d)] := by
    have hne : w ∉ [([c], d)].map Prod.fst := by
      rw [List.map_singleton, List.mem_singleton]
      intro h
      rw [h] at hlength
      exact absurd hlength (by simp)
    have hone : ¬w.length = 1 := by omega
    rw [option_adder, hfirst, Except.bind]
    simp only [List.length_cons, List.length_nil, hone, false_and, if_false, Nat.zero_add,
      Nat.one_ne_zero, add_option, ne_eq, List.cons_ne_nil, not_false_eq_true, if_true, hnil]
    rw [WellFormed.add_one_option_of_new List.not_mem_nil, Except.bind,
      WellFormed.add_one_option_of_new hne]
  have hadder' : option_adder SplitSwitchDef (w ++ [c]) v' [(w, d), ([c], d)] =
      .ok [(w ++ [c], d'), (w, d), ([c], d)] := by
    have hlen : (w ++ [c]).length = w.length + 1 := by simp
    have hne : w ++ [c] ∉ [(w, d), ([c], d)].map Prod.fst := by
      rw [List.map_cons, List.map_singleton, List.mem_cons, List.mem_singleton]
      rintro (h | h)
      · have hsame : w.length + 1 = w.length := hlen.symm.trans (congrArg List.length h)
        omega
      · have hsame := congrArg List.length h
        rw [hlen, List.length_singleton] at hsame
        omega
    have hone : ¬w.length + 1 = 1 := by omega
    have hzero : ¬w.length + 1 = 0 := by omega
    have hnil' : w ++ [c] ≠ [] := by simp
    rw [option_adder, hsecond, Except.bind]
    simp only [hlen, hone, hzero, List.length_nil, and_false, if_false, add_option, ne_eq,
      not_true_eq_false, hnil', not_false_eq_true, if_true]
    rw [Except.bind, WellFormed.add_one_option_of_new hne]
  have hadd : add_options SplitSwitchDef [(c :: ',' :: w, v), (w ++ [c], v')] =
      .ok [(w ++ [c], d'), (w, d), ([c], d)] := by
    rw [add_options, List.foldlM_cons, hadder]
    exact (congrArg (Except.bind · _) hadder').trans rfl
  refine ⟨_, hadd, fun P hperm argv r h => ?_⟩
  have hwell : WellFormed P.m_options := (WellFormed.add_options hadd).perm hperm
  have hfind : P.find w = some d :=
    (WellFormed.lookup_eq_some_iff hwell.names).2 (hperm.mem_iff.1 (by simp))
  have hfind' : P.find (w ++ [c]) = some d' :=
    (WellFormed.lookup_eq_some_iff hwell.names).2 (hperm.mem_iff.1 (by simp))
  have hhash : P.hashOf d = P.hashOf d' := by
    rw [hashOf, hashOf]
    simp [d, d']
  exact get_eq_of_hash hwell hfind hfind' hhash h

/-- The options `s,file` and `files`. -/
theorem shared_store_files : ∃ options,
    add_options ByRegex.SplitSwitchDef
      [(['s', ',', 'f', 'i', 'l', 'e'], standard_value_string),
        (['f', 'i', 'l', 'e', 's'], standard_value_strings)] = .ok options ∧
      ∀ P : OptionParser Stored Text, options.Perm P.m_options → ∀ argv r, P.parse argv = .ok r →
        r.count ['f', 'i', 'l', 'e'] = r.count ['f', 'i', 'l', 'e', 's'] ∧
          ∃ store, r.get ['f', 'i', 'l', 'e'] = .ok store ∧
            r.get ['f', 'i', 'l', 'e', 's'] = .ok store :=
  shared_store (Or.inl rfl) (by decide)
    ⟨'f', ['i', 'l', 'e'], rfl, by decide, List.cons_ne_nil _ _, by decide⟩ _ _

end OptionParser

end Cxxopts
