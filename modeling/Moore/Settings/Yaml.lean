import Moore.Settings.Basic
import Moore.Yaml.Decode

/-
# Settings as YAML

The decoding of settings files.  Every part may be missing and then stays at its default;
parts of other names are passed over.
-/

namespace Moore

/-! ### Drafts -/

structure CheckRules.Draft where
  perState : Option Bool := none
  wholeSet : Option Bool := none
  requireDefault : Option Bool := none
  reachability : Option Bool := none

def CheckRules.Draft.finish (d : CheckRules.Draft) : CheckRules where
  perState := d.perState.getD true
  wholeSet := d.wholeSet.getD false
  requireDefault := d.requireDefault.getD true
  reachability := d.reachability.getD true

structure OutputSettings.Draft where
  format : Option Format := none
  color : Option ColorMode := none

def OutputSettings.Draft.finish (d : OutputSettings.Draft) : OutputSettings where
  format := d.format.getD .text
  color := d.color.getD .auto

structure SessionSettings.Draft where
  historyFile : Option (Option String) := none
  maxHistory : Option Nat := none

def SessionSettings.Draft.finish (d : SessionSettings.Draft) : SessionSettings where
  historyFile := d.historyFile.join
  maxHistory := d.maxHistory.getD 1000

structure Settings.Draft where
  rules : Option CheckRules := none
  output : Option OutputSettings := none
  session : Option SessionSettings := none

def Settings.Draft.finish (d : Settings.Draft) : Settings where
  rules := d.rules.getD {}
  output := d.output.getD {}
  session := d.session.getD {}

/-! ### Decoders -/

namespace Yaml.Decoder

variable (anchors : Anchors)

def rules : Decoder CheckRules :=
  record anchors {
    name := "CheckRules"
    fields := [
      .of "per_state_checks" true (bool anchors) (·.perState)
        fun d v => { d with perState := some v },
      .of "whole_set_checks" true (bool anchors) (·.wholeSet)
        fun d v => { d with wholeSet := some v },
      .of "require_default" true (bool anchors) (·.requireDefault)
        fun d v => { d with requireDefault := some v },
      .of "reachability" true (bool anchors) (·.reachability)
        fun d v => { d with reachability := some v }]
    start := ({} : CheckRules.Draft)
    finish := fun d => .ok d.finish }

def outputSettings : Decoder OutputSettings :=
  record anchors {
    name := "OutputSettings"
    fields := [
      .of "format" true (choice anchors Format.names) (·.format)
        fun d v => { d with format := some v },
      .of "color" true (choice anchors ColorMode.names) (·.color)
        fun d v => { d with color := some v }]
    start := ({} : OutputSettings.Draft)
    finish := fun d => .ok d.finish }

def sessionSettings : Decoder SessionSettings :=
  record anchors {
    name := "SessionSettings"
    fields := [
      .of "history_file" true (nullable anchors (string anchors)) (·.historyFile)
        fun d v => { d with historyFile := some v },
      .of "max_history" true (natural anchors) (·.maxHistory)
        fun d v => { d with maxHistory := some v }]
    start := ({} : SessionSettings.Draft)
    finish := fun d => .ok d.finish }

def settings : Decoder Settings :=
  record anchors {
    name := "Settings"
    fields := [
      .of "analysis" true (rules anchors) (·.rules) fun d v => { d with rules := some v },
      .of "output" true (outputSettings anchors) (·.output)
        fun d v => { d with output := some v },
      .of "repl" true (sessionSettings anchors) (·.session)
        fun d v => { d with session := some v }]
    start := ({} : Settings.Draft)
    finish := fun d => .ok d.finish }

end Yaml.Decoder

end Moore
