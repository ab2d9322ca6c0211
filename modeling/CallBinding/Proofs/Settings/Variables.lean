import CallBinding.Proofs.Text.Decimal
import CallBinding.Settings.Variables

/-!
# What variables say

A variable for a delay spells a number of milliseconds or nothing.  The delays
are read in order and reading stops at the first one that spells nothing;
otherwise the variables override the defaults one by one, and what comes of it
is checked.
-/

namespace CallBinding

/-- A text spells a delay if it is a numeral of it between blanks. -/
def Spells (text : String) (value : UInt64) : Prop :=
  ∃ core, IsPadded core text.toList ∧ IsNumeral core value.toNat

/-- A variable is readable if it is not set or spells a delay. -/
def IsReadable (lookup : String → Option String) (delay : Delay) : Prop :=
  ∀ text, lookup delay.variableName = some text → ∃ value, Spells text value

namespace Settings

/-- A delay is the first whose variable is set to a text that spells none. -/
structure IsFirstUnreadable (lookup : String → Option String) (delays : List Delay)
    (delay : Delay) (text : String) : Prop where
  exists_before : ∃ before after, delays = before ++ delay :: after ∧
    ∀ earlier ∈ before, IsReadable lookup earlier
  found : lookup delay.variableName = some text
  unreadable : ∀ value, ¬Spells text value

/-- Settings are the defaults with the values of the variables that are set. -/
structure Overrides (lookup : String → Option String) (settings : Settings) : Prop where
  defaultName : settings.defaultName = (lookup defaultNameVariable).getD default.defaultName
  unset : ∀ delay, lookup delay.variableName = none →
    settings.delay delay = default.delay delay
  given : ∀ delay text, lookup delay.variableName = some text →
    Spells text (settings.delay delay)

/-- What variables give, and what is said about them if they give nothing. -/
inductive Reads (lookup : String → Option String) : Except (Option SettingFault) Settings → Prop
  | unreadable {delay : Delay} {text : String} :
      IsFirstUnreadable lookup Delay.all delay text →
      Reads lookup (.error (some
        ⟨delay.variableName, text, "expected a whole number of milliseconds"⟩))
  | unnamed {settings : Settings} :
      Overrides lookup settings → Name.isPlaceholder settings.defaultName = true →
      Reads lookup (.error (some
        ⟨"default_name", settings.defaultName, "must not be a placeholder name"⟩))
  | tooShort {settings : Settings} :
      Overrides lookup settings → Name.isPlaceholder settings.defaultName = false →
      settings.suppressionWindow ≤ settings.recheckDelay →
      Reads lookup (.error (some
        ⟨"suppression_window_ms", decimal settings.suppressionWindow.toNat,
          "must exceed recheck_delay_ms (" ++ decimal settings.recheckDelay.toNat ++ ")"⟩))
  | accepted {settings : Settings} :
      Overrides lookup settings → Name.isPlaceholder settings.defaultName = false →
      settings.recheckDelay < settings.suppressionWindow →
      Reads lookup (.ok settings)

end Settings

variable {lookup : String → Option String} {text : String} {value other : UInt64}

theorem Delay.mem_all (delay : Delay) : delay ∈ Delay.all := by
  cases delay <;> decide

/-! ## One variable -/

theorem readMilliseconds?_eq_some_iff :
    readMilliseconds? text = some value ↔ Spells text value := by
  rw [readMilliseconds?, Option.map_eq_some_iff]
  constructor
  · rintro ⟨number, hnumber, rfl⟩
    obtain ⟨hnumeral, hlimit⟩ := readNumeral?_eq_some_iff.mp hnumber
    refine ⟨_, isPadded_trimBlanks text.toList, ?_⟩
    rwa [UInt64.toNat_ofNat_of_lt' hlimit]
  · rintro ⟨core, hpadded, hnumeral⟩
    refine ⟨value.toNat, ?_, UInt64.ofNat_toNat⟩
    rw [hpadded.trimBlanks_eq hnumeral.isBare, readNumeral?_eq_some_iff]
    exact ⟨hnumeral, value.toNat_lt⟩

/-- A text spells at most one delay. -/
theorem Spells.unique (h : Spells text value) (hother : Spells text other) : value = other :=
  Option.some.inj ((readMilliseconds?_eq_some_iff.mpr h).symm.trans
    (readMilliseconds?_eq_some_iff.mpr hother))

theorem readMilliseconds?_eq_none (h : ∀ value, ¬Spells text value) :
    readMilliseconds? text = none :=
  Option.eq_none_iff_forall_ne_some.mpr fun value hvalue =>
    h value (readMilliseconds?_eq_some_iff.mp hvalue)

theorem not_isReadable_iff {delay : Delay} :
    ¬IsReadable lookup delay ↔
      ∃ text, lookup delay.variableName = some text ∧ ∀ value, ¬Spells text value := by
  simp [IsReadable]

namespace Settings

variable {settings mid after : Settings} {delay : Delay} {delays : List Delay}

@[simp] theorem delay_setDelay_self (settings : Settings) (value : UInt64) (delay : Delay) :
    (settings.setDelay value delay).delay delay = value := by
  cases delay <;> rfl

theorem delay_setDelay_of_ne {earlier : Delay} (settings : Settings) (value : UInt64)
    (hne : earlier ≠ delay) :
    (settings.setDelay value delay).delay earlier = settings.delay earlier := by
  cases delay <;> cases earlier <;> first | rfl | exact absurd rfl hne

@[simp] theorem defaultName_setDelay (settings : Settings) (value : UInt64) (delay : Delay) :
    (settings.setDelay value delay).defaultName = settings.defaultName := by
  cases delay <;> rfl

theorem ext_delay {other : Settings} (hname : settings.defaultName = other.defaultName)
    (hdelay : ∀ delay, settings.delay delay = other.delay delay) : settings = other := by
  cases settings
  cases other
  cases hname
  cases hdelay .spawnCheck
  cases hdelay .recheck
  cases hdelay .debounce
  cases hdelay .suppressionWindow
  rfl

/-! ## Reading some delays -/

/-- Settings take some delays over from their variables and leave all else as it was. -/
structure Takes (lookup : String → Option String) (delays : List Delay)
    (settings after : Settings) : Prop where
  defaultName : after.defaultName = settings.defaultName
  kept : ∀ delay, delay ∉ delays ∨ lookup delay.variableName = none →
    after.delay delay = settings.delay delay
  taken : ∀ delay ∈ delays, ∀ text, lookup delay.variableName = some text →
    Spells text (after.delay delay)

theorem Takes.nil (lookup : String → Option String) (settings : Settings) :
    Takes lookup [] settings settings where
  defaultName := rfl
  kept _ _ := rfl
  taken _ hdelay := nomatch hdelay

theorem Takes.cons (h : Takes lookup [delay] settings mid) (hrest : Takes lookup delays mid after) :
    Takes lookup (delay :: delays) settings after where
  defaultName := hrest.defaultName.trans h.defaultName
  kept earlier hearlier := by
    rw [List.mem_cons, not_or] at hearlier
    rw [hrest.kept earlier (hearlier.imp_left And.right)]
    exact h.kept earlier (hearlier.imp_left fun hne => by simpa using hne.1)
  taken earlier hearlier text htext := by
    by_cases hlater : earlier ∈ delays
    · exact hrest.taken earlier hlater text htext
    · obtain rfl := (List.mem_cons.mp hearlier).resolve_right hlater
      rw [hrest.kept earlier (.inl hlater)]
      exact h.taken earlier List.mem_cons_self text htext

theorem exists_readDelay (settings : Settings) (h : IsReadable lookup delay) :
    ∃ after, readDelay lookup settings delay = .ok after ∧
      Takes lookup [delay] settings after := by
  cases hlookup : lookup delay.variableName with
  | none =>
      refine ⟨settings, by rw [readDelay, hlookup], rfl, fun _ _ => rfl, ?_⟩
      intro earlier hearlier text htext
      obtain rfl := List.mem_singleton.mp hearlier
      rw [hlookup] at htext
      cases htext
  | some text =>
      obtain ⟨value, hvalue⟩ := h text hlookup
      refine ⟨settings.setDelay value delay, ?_, defaultName_setDelay settings value delay, ?_, ?_⟩
      · simp only [readDelay, hlookup, readMilliseconds?_eq_some_iff.mpr hvalue]
      · intro earlier hearlier
        refine delay_setDelay_of_ne settings value ?_
        rintro rfl
        simp [hlookup] at hearlier
      · intro earlier hearlier other hother
        obtain rfl := List.mem_singleton.mp hearlier
        obtain rfl := Option.some.inj (hlookup.symm.trans hother)
        rwa [delay_setDelay_self]

theorem readDelay_of_unreadable (settings : Settings)
    (hfound : lookup delay.variableName = some text) (hunreadable : ∀ value, ¬Spells text value) :
    readDelay lookup settings delay = .error (.notMilliseconds delay.variableName text) := by
  simp only [readDelay, hfound, readMilliseconds?_eq_none hunreadable]

theorem exists_foldlM_readDelay (settings : Settings)
    (h : ∀ delay ∈ delays, IsReadable lookup delay) :
    ∃ after, delays.foldlM (readDelay lookup) settings = .ok after ∧
      Takes lookup delays settings after := by
  induction delays generalizing settings with
  | nil => exact ⟨settings, rfl, .nil lookup settings⟩
  | cons delay rest ih =>
      obtain ⟨mid, hmid, htakes⟩ := exists_readDelay settings (h delay List.mem_cons_self)
      obtain ⟨after, hafter, hrest⟩ := ih mid fun later hlater => h later (.tail _ hlater)
      refine ⟨after, ?_, htakes.cons hrest⟩
      rw [List.foldlM_cons, hmid]
      exact hafter

theorem IsFirstUnreadable.foldlM_readDelay (h : IsFirstUnreadable lookup delays delay text)
    (settings : Settings) :
    delays.foldlM (readDelay lookup) settings =
      .error (.notMilliseconds delay.variableName text) := by
  obtain ⟨before, after, rfl, hbefore⟩ := h.exists_before
  -- What is read before the fault does not show in the error.
  obtain ⟨mid, hmid, -⟩ := exists_foldlM_readDelay settings hbefore
  rw [List.foldlM_append, hmid]
  show (readDelay lookup mid delay).bind _ = _
  rw [readDelay_of_unreadable mid h.found h.unreadable]
  rfl

theorem readable_or_exists_first (lookup : String → Option String) (delays : List Delay) :
    (∀ delay ∈ delays, IsReadable lookup delay) ∨
      ∃ delay text, IsFirstUnreadable lookup delays delay text := by
  induction delays with
  | nil => exact .inl fun delay hdelay => nomatch hdelay
  | cons delay rest ih =>
      by_cases hdelay : IsReadable lookup delay
      · refine ih.imp (fun hrest => List.forall_mem_cons.mpr ⟨hdelay, hrest⟩) ?_
        rintro ⟨later, text, ⟨before, after, rfl, hbefore⟩, hfound, hunreadable⟩
        have hearlier : ∀ earlier ∈ delay :: before, IsReadable lookup earlier :=
          List.forall_mem_cons.mpr ⟨hdelay, hbefore⟩
        exact ⟨later, text, ⟨delay :: before, after, rfl, hearlier⟩, hfound, hunreadable⟩
      · obtain ⟨text, hfound, hunreadable⟩ := not_isReadable_iff.mp hdelay
        exact .inr ⟨delay, text, ⟨[], rest, rfl, fun earlier hearlier => nomatch hearlier⟩,
          hfound, hunreadable⟩

/-! ## Reading all variables -/

theorem Overrides.unique {other : Settings} (h : Overrides lookup settings)
    (hother : Overrides lookup other) : settings = other := by
  refine ext_delay (h.defaultName.trans hother.defaultName.symm) fun delay => ?_
  cases hlookup : lookup delay.variableName with
  | none => rw [h.unset delay hlookup, hother.unset delay hlookup]
  | some text => exact (h.given delay text hlookup).unique (hother.given delay text hlookup)

theorem Overrides.isReadable (h : Overrides lookup settings) (delay : Delay) :
    IsReadable lookup delay :=
  fun text hfound => ⟨_, h.given delay text hfound⟩

theorem defaultName_readDefaultName (lookup : String → Option String) (settings : Settings) :
    (readDefaultName lookup settings).defaultName =
      (lookup defaultNameVariable).getD settings.defaultName := by
  unfold readDefaultName
  cases lookup defaultNameVariable <;> rfl

theorem delay_readDefaultName (lookup : String → Option String) (settings : Settings)
    (delay : Delay) : (readDefaultName lookup settings).delay delay = settings.delay delay := by
  unfold readDefaultName
  cases lookup defaultNameVariable <;> cases delay <;> rfl

theorem exists_overrides (h : ∀ delay ∈ Delay.all, IsReadable lookup delay) :
    ∃ settings, Overrides lookup settings ∧
      Delay.all.foldlM (readDelay lookup) (readDefaultName lookup default) = .ok settings := by
  obtain ⟨settings, hsettings, htakes⟩ := exists_foldlM_readDelay (readDefaultName lookup default) h
  refine ⟨settings, ⟨?_, fun delay hunset => ?_, fun delay => ?_⟩, hsettings⟩
  · rw [htakes.defaultName, defaultName_readDefaultName]
  · rw [htakes.kept delay (.inr hunset), delay_readDefaultName]
  · exact htakes.taken delay (Delay.mem_all delay)

theorem Overrides.ofVariables_eq (h : Overrides lookup settings) :
    ofVariables lookup = settings.validated := by
  obtain ⟨read, hoverrides, hread⟩ := exists_overrides fun delay _ => h.isReadable delay
  rw [ofVariables, hread, hoverrides.unique h]
  rfl

theorem IsFirstUnreadable.ofVariables_eq (h : IsFirstUnreadable lookup Delay.all delay text) :
    ofVariables lookup = .error (.notMilliseconds delay.variableName text) := by
  rw [ofVariables, h.foldlM_readDelay]
  rfl

theorem Reads.ofVariables_eq {result : Except (Option SettingFault) Settings}
    (h : Reads lookup result) : (ofVariables lookup).mapError SettingsError.fault? = result := by
  cases h with
  | unreadable hfirst =>
      rw [hfirst.ofVariables_eq]
      rfl
  | unnamed hoverrides hplaceholder =>
      rw [hoverrides.ofVariables_eq, validated, validate, if_pos hplaceholder]
      rfl
  | tooShort hoverrides hname hshort =>
      rw [hoverrides.ofVariables_eq, validated, validate, hname, if_neg Bool.false_ne_true,
        if_pos hshort]
      rfl
  | accepted hoverrides hname hlong =>
      rw [hoverrides.ofVariables_eq, validated, validate, hname, if_neg Bool.false_ne_true,
        if_neg (UInt64.not_le.mpr hlong)]
      rfl

theorem exists_reads (lookup : String → Option String) : ∃ result, Reads lookup result := by
  obtain hreadable | ⟨delay, text, hfirst⟩ := readable_or_exists_first lookup Delay.all
  · obtain ⟨settings, hoverrides, -⟩ := exists_overrides hreadable
    cases hname : Name.isPlaceholder settings.defaultName with
    | true => exact ⟨_, .unnamed hoverrides hname⟩
    | false =>
        by_cases hwindow : settings.suppressionWindow ≤ settings.recheckDelay
        · exact ⟨_, .tooShort hoverrides hname hwindow⟩
        · exact ⟨_, .accepted hoverrides hname (UInt64.not_le.mp hwindow)⟩
  · exact ⟨_, .unreadable hfirst⟩

/-- Variables are read by their grammar: they give what it says, or fail for the reason that it
gives first. -/
theorem ofVariables_eq_iff_reads (lookup : String → Option String)
    (result : Except (Option SettingFault) Settings) :
    (ofVariables lookup).mapError SettingsError.fault? = result ↔ Reads lookup result := by
  constructor
  · rintro rfl
    obtain ⟨read, hread⟩ := exists_reads lookup
    rwa [hread.ofVariables_eq]
  · exact Reads.ofVariables_eq

end Settings
end CallBinding
