import FastAdHunter.Rules.Lifecycle.Failure
import FastAdHunter.Rules.Lifecycle.Gate
import FastAdHunter.Rules.Lifecycle.Validators
import FastAdHunter.Rules.Lifecycle.Removal
import FastAdHunter.Dns.Upstream
import FastAdHunter.Api.ClientPolicy
import FastAdHunter.Api.UserRules
import FastAdHunter.Rules.Lifecycle.Retry
import FastAdHunter.Http.ToldHost
import FastAdHunter.Rules.UnknownType
import FastAdHunter.Dns.Exchange
import FastAdHunter.Dns.Passthrough
import FastAdHunter.Dns.OneProbe
import FastAdHunter.Dns.Outcomes
import FastAdHunter.Api.PasswordChange
import FastAdHunter.Certs.Replacement
import FastAdHunter.Config.Tz
import FastAdHunter.Rules.Networks
import FastAdHunter.Stats.Decimator
import FastAdHunter.Rules.Accounting
